import LdSo.SysvHash

open cmodel

namespace ldso.symbol_resolution

open elf elf_manipulation

variable {sys : System} {m : Memory 64} {next : LinkMap} {o : ObjectFile} {addr base : elf_addr}

/-- The bucket the loader searches for a name. -/
def elf_bucket (nbuckets : Nat) (name : CString) : Nat := (elf_hash name).toNat % nbuckets

/-- The scan follows the chain to the first entry of the name. A well-formed
chain is no longer than the symbol table, so the scan ends. -/
theorem hash_scan_eq_find (t : SysvHash o.symbols) (next : LinkMap)
    (hchain : m.Holds base (encodeArray 4 t.chain)) (rela_name : CString) (ps : List Nat) :
    ∀ (i : BitVec 32) (fuel : Nat), Chain chain_link t.chain (chain_link i) ps → ps.length ≤ fuel →
      hash_scan m (syms o.dynsym) (some o.dynstr) rela_name next.l_addr base o.symbols.length fuel i =
        .ok (next.addressOf ((ps.filterMap fun i => o.symbols[i]?).find? fun s => s.name = rela_name)) := by
  induction ps with
  | nil =>
    intro i fuel hps _
    have hzero : i = 0 := chain_link_eq_none.mp hps
    unfold hash_scan
    rw [if_pos (Or.inl hzero)]
    rfl
  | cons p ps ih =>
    intro i fuel hps hfuel
    obtain ⟨hstart, w, hw, htail⟩ := hps
    obtain ⟨hne, hp⟩ := chain_link_eq_some.mp hstart
    obtain ⟨hpc, hget⟩ := List.getElem?_eq_some_iff.mp hw
    have hlt : p < o.symbols.length := t.chain_length ▸ hpc
    have hsym : o.symbols[p]? = some o.symbols[p] := List.getElem?_eq_getElem hlt
    obtain ⟨d, hd, hiff⟩ := ObjectFile.strcmp_symbol (List.getElem_mem hlt) rela_name
    have hload : m.loadWord 32 (base + 4#64 * i.setWidth 64) = .ok w := by
      have h := hchain.loadWord_array (w := 32) rfl hpc
      rwa [BitVec.ofNat_mul, hget, ← hp, BitVec.ofNat_toNat] at h
    unfold hash_scan
    rw [if_neg (by simp only [hne, false_or]; omega), hp]
    cases fuel with
    | zero => simp at hfuel
    | succ fuel =>
      simp only [ObjectFile.syms_getElem?, hsym, Option.map_some, Outcome.ofOption_some, Outcome.ok_bind, hd]
      rw [List.filterMap_cons_some hsym]
      by_cases hname : rela_name = o.symbols[p].name
      · rw [if_pos (hiff.mpr hname), List.find?_cons_of_pos (by simp [hname])]
        rfl
      · rw [if_neg fun h => hname (hiff.mp h), List.find?_cons_of_neg (by simpa using Ne.symm hname), hload]
        exact ih w fuel htail (by simpa using hfuel)

/-- On a well-formed table the search returns the first entry of the name on
the chain that the loader's hash selects. -/
theorem hash_table_search_eq (t : SysvHash o.symbols) (hm : m.Holds base t.bytes) (next : LinkMap)
    (rela_name : CString) :
    hash_table_search m (syms o.dynsym) (some o.dynstr) rela_name next.l_addr o.symbols.length base =
      .ok (next.addressOf (t.entry (elf_bucket t.buckets.length rela_name) rela_name)) := by
  unfold SysvHash.bytes at hm
  rw [Memory.holds_append, Memory.holds_append] at hm
  simp only [encodeArray_length, BitVec.ofNat_mul] at hm
  obtain ⟨hheader, hbuckets, hchain⟩ := hm
  have hlt := Nat.mod_lt (elf_hash rela_name).toNat t.buckets_pos
  have hn := List.getElem?_eq_getElem hlt
  have hload := hbuckets.loadWord_array (w := 32) rfl hlt
  generalize t.buckets[(elf_hash rela_name).toNat % t.buckets.length] = n at hn hload
  have h0 : m.loadWord 32 base = .ok (BitVec.ofNat 32 t.buckets.length) := by
    have h := hheader.loadWord_array (w := 32) (i := 0) rfl (by simp)
    rwa [Nat.mul_zero, BitVec.add_zero] at h
  have hnb : (BitVec.ofNat 32 t.buckets.length).toNat = t.buckets.length := by
    rw [BitVec.toNat_ofNat, Nat.mod_eq_of_lt t.buckets_lt]
  have hwide : (BitVec.ofNat 32 t.buckets.length).setWidth 64 = BitVec.ofNat 64 t.buckets.length := by
    apply BitVec.eq_of_toNat_eq
    rw [BitVec.toNat_setWidth, hnb, BitVec.toNat_ofNat]
  have hne : BitVec.ofNat 32 t.buckets.length ≠ 0 := by
    intro h
    have hnat := congrArg BitVec.toNat h
    rw [hnb] at hnat
    exact t.buckets_pos.ne' hnat
  have hwalk := t.walk _ n hn
  rw [BitVec.ofNat_mul] at hload
  simp only [hash_table_search, h0, Outcome.ok_bind, hne, if_false, hnb, hwide]
  rw [show m.loadWord 32 (base + 8#64 + 4#64 * BitVec.ofNat 64 ((elf_hash rela_name).toNat % t.buckets.length)) = .ok n from hload,
    Outcome.ok_bind]
  exact hash_scan_eq_find t next hchain rela_name _ n _ hwalk (t.chain_length ▸ hwalk.length_le)

/-- An object without the table whose `l_addr` is zero is skipped. -/
theorem hash_lookup_null (ho : o.OnDisk sys next.l_name) (hdyn : find_dyn DT_HASH (dyns o.dynamic) = .ok addr)
    (hnull : addr + next.l_addr = 0) (rela_name : CString) : hash_lookup sys m next rela_name = .ok 0 := by
  simp only [hash_lookup, get_hashtab, ho.ehdr, ho.dynamic, Outcome.ok_bind, Outcome.ofOption_some, hdyn, hnull,
    if_true]

/-- Any other object is searched at its table's address, or at `l_addr` itself
when it has no table. -/
theorem hash_lookup_eq_search (ho : o.OnDisk sys next.l_name) (hdyn : find_dyn DT_HASH (dyns o.dynamic) = .ok addr)
    (hne : addr + next.l_addr ≠ 0) (rela_name : CString) :
    hash_lookup sys m next rela_name =
      hash_table_search m (syms o.dynsym) (some o.dynstr) rela_name next.l_addr o.symbols.length (addr + next.l_addr) := by
  simp only [hash_lookup, get_hashtab, ho.ehdr, ho.dynstr, ho.dynamic, ho.dynsym, ho.size, Outcome.ok_bind,
    Outcome.ofOption_some, hdyn, hne, if_false, ObjectFile.size_t_count, Option.getD_some]

theorem hash_lookup_eq_entry (ho : o.OnDisk sys next.l_name) (t : SysvHash o.symbols)
    (hdyn : find_dyn DT_HASH (dyns o.dynamic) = .ok addr) (hne : addr + next.l_addr ≠ 0)
    (hm : m.Holds (addr + next.l_addr) t.bytes) (rela_name : CString) :
    hash_lookup sys m next rela_name =
      .ok (next.addressOf (t.entry (elf_bucket t.buckets.length rela_name) rela_name)) := by
  rw [hash_lookup_eq_search ho hdyn hne, hash_table_search_eq t hm next rela_name]

end ldso.symbol_resolution
