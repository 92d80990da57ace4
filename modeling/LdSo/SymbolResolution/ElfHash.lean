import LdSo.SymbolResolution.FirstDefinition

open cmodel

namespace ldso

namespace symbol_resolution

theorem and_nibble_of_lt {x : BitVec 32} (hx : x.toNat < 2 ^ 28) : x &&& 0xf0000000#32 = 0#32 := by
  rw [show 0xf0000000#32 = 0xf#32 <<< 28 from rfl]
  apply BitVec.eq_of_getLsbD_eq
  intro i _
  rw [BitVec.getLsbD_and, BitVec.getLsbD_shiftLeft, BitVec.getLsbD_zero]
  by_cases hlow : i < 28
  · simp [hlow]
  · have hbit : x.getLsbD i = false :=
      Nat.testBit_lt_two_pow (hx.trans_le (Nat.pow_le_pow_right (by omega) (Nat.le_of_not_lt hlow)))
    rw [hbit, Bool.false_and]

/-- The mask that clears the top nibble of the hash is the whole hash, so a hash
below `2 ^ 28` is cleared completely. -/
theorem clear_of_lt {x : BitVec 32} (hx : x.toNat < 2 ^ 28) :
    (if x &&& 0xf0000000#32 ≠ 0 then x ^^^ (x >>> 24) else x) &&& ~~~x = 0#32 := by
  rw [if_neg fun h => h (and_nibble_of_lt hx)]
  exact BitVec.and_not_self x

/-- A hash that a sign-extended byte made negative keeps the complement of its
low byte. -/
theorem clear_of_negative (y : BitVec 8) :
    let x := ~~~(y.setWidth 32)
    (if x &&& 0xf0000000#32 ≠ 0 then x ^^^ (x >>> 24) else x) &&& ~~~x = y.setWidth 32 := by
  revert y
  decide

/-- The hash after one more byte, when it was small: 0 behind an ASCII byte, the
complement of what the shift and the byte add up to behind any other. -/
def high_step (r : Nat) (c : Byte) : Nat := if c < 0x80#8 then 0 else 255 - (16 * r + c.toNat)

theorem high_step_le (r : Nat) (c : Byte) : high_step r c ≤ 127 := by
  unfold high_step
  split
  · omega
  · next hc =>
    have hhigh : 128 ≤ c.toNat := by simpa [BitVec.lt_def] using hc
    omega

theorem elf_hash_step_eq {r : Nat} (hr : r ≤ 127) (c : Byte) :
    elf_hash_step (BitVec.ofNat 32 r) c = BitVec.ofNat 32 (high_step r c) := by
  have hc := c.isLt
  have hshift : (BitVec.ofNat 32 r <<< 4).toNat = 16 * r := by
    rw [BitVec.toNat_shiftLeft, BitVec.toNat_ofNat, Nat.shiftLeft_eq]
    omega
  unfold elf_hash_step high_step
  by_cases hlow : c < 0x80#8
  · have hlt : c.toNat < 128 := by simpa [BitVec.lt_def] using hlow
    have hext : (c.signExtend 32).toNat = c.toNat := by
      rw [BitVec.toNat_signExtend, BitVec.msb_eq_decide]
      simp [Nat.not_le.mpr hlt]
      omega
    rw [if_pos hlow]
    apply clear_of_lt
    rw [BitVec.toNat_add, hshift, hext]
    omega
  · have hhigh : 128 ≤ c.toNat := by simpa [BitVec.lt_def] using hlow
    have hext : (c.signExtend 32).toNat = 2 ^ 32 - 256 + c.toNat := by
      rw [BitVec.toNat_signExtend, BitVec.msb_eq_decide]
      simp [hhigh]
      omega
    rw [if_neg hlow]
    by_cases hsum : 16 * r + c.toNat < 256
    · have hx : (BitVec.ofNat 32 r <<< 4) + c.signExtend 32 =
          ~~~((BitVec.ofNat 8 (255 - (16 * r + c.toNat))).setWidth 32) := by
        apply BitVec.eq_of_toNat_eq
        rw [BitVec.toNat_add, hshift, hext, BitVec.toNat_not, BitVec.toNat_setWidth, BitVec.toNat_ofNat]
        omega
      rw [hx]
      apply (clear_of_negative _).trans
      apply BitVec.eq_of_toNat_eq
      rw [BitVec.toNat_setWidth, BitVec.toNat_ofNat, BitVec.toNat_ofNat]
      omega
    · rw [show 255 - (16 * r + c.toNat) = 0 by omega]
      apply clear_of_lt
      rw [BitVec.toNat_add, hshift, hext]
      omega

/-- What the bytes from 0x80 on at the end of a name add up to, from the first
of them to the last. -/
def high_tail (name : CString) : Nat :=
  (name.chars.reverse.takeWhile fun c => 0x80#8 ≤ c).foldr (fun c r => 255 - (16 * r + c.toNat)) 0

theorem foldl_high_step (chars : List Byte) :
    chars.foldl high_step 0 =
      (chars.reverse.takeWhile fun c => 0x80#8 ≤ c).foldr (fun c r => 255 - (16 * r + c.toNat)) 0 := by
  induction chars using List.reverseRecOn with
  | nil => rfl
  | append_singleton chars c ih =>
    rw [List.foldl_append, List.foldl_cons, List.foldl_nil, List.reverse_append, List.reverse_singleton,
      List.singleton_append]
    by_cases hlow : c < 0x80#8
    · rw [List.takeWhile_cons_of_neg (by simpa using hlow), high_step, if_pos hlow]
      rfl
    · rw [List.takeWhile_cons_of_pos (by simpa using BitVec.not_lt.mp hlow), List.foldr_cons, ← ih, high_step,
        if_neg hlow]

/-- The hash is the value of the tail alone; any ASCII byte resets it. -/
theorem elf_hash_eq_high_tail (name : CString) : elf_hash name = BitVec.ofNat 32 (high_tail name) := by
  have hrun : ∀ (chars : List Byte) (r : Nat), r ≤ 127 →
      chars.foldl elf_hash_step (BitVec.ofNat 32 r) = BitVec.ofNat 32 (chars.foldl high_step r) := by
    intro chars
    induction chars with
    | nil =>
      intro r _
      rfl
    | cons c chars ih =>
      intro r hr
      rw [List.foldl_cons, List.foldl_cons, elf_hash_step_eq hr, ih _ (high_step_le r c)]
  rw [elf_hash, high_tail, ← foldl_high_step]
  exact hrun name.chars 0 (Nat.zero_le _)

theorem high_tail_le (name : CString) : high_tail name ≤ 127 := by
  rw [high_tail, ← foldl_high_step]
  induction name.chars using List.reverseRecOn with
  | nil => simp
  | append_singleton chars c _ =>
    rw [List.foldl_append]
    exact high_step_le _ c

@[simp] theorem elf_hash_toNat (name : CString) : (elf_hash name).toNat = high_tail name := by
  have hle := high_tail_le name
  rw [elf_hash_eq_high_tail, BitVec.toNat_ofNat]
  omega

/-- As long as nothing is shifted into the top nibble, the published hash only
adds up. -/
theorem gabi_hash_step_toNat {h : BitVec 32} (hh : h.toNat < 2 ^ 23) (c : Byte) :
    (gabi_hash_step h c).toNat = 16 * h.toNat + c.toNat := by
  have hc := c.isLt
  have hx : ((h <<< 4) + c.setWidth 32).toNat = 16 * h.toNat + c.toNat := by
    rw [BitVec.toNat_add, BitVec.toNat_shiftLeft, BitVec.toNat_setWidth, Nat.shiftLeft_eq]
    omega
  have hnibble := and_nibble_of_lt (x := (h <<< 4) + c.setWidth 32) (by omega)
  unfold gabi_hash_step
  simp only [hnibble, BitVec.zero_ushiftRight, BitVec.xor_zero]
  rw [show ~~~(0#32) = BitVec.allOnes 32 from rfl, BitVec.and_allOnes, hx]

/-- No name of one to five bytes has the published hash. -/
theorem elf_hash_ne_of_short {name : CString} (hne : name.chars ≠ []) (hlen : name.chars.length ≤ 5) :
    elf_hash name ≠ gabi_hash name := by
  have hsum : ∀ chars : List Byte, chars.length ≤ 4 →
      17 + (chars.foldl gabi_hash_step 0#32).toNat ≤ 17 * 16 ^ chars.length := by
    intro chars
    induction chars using List.reverseRecOn with
    | nil => simp
    | append_singleton chars c ih =>
      intro h
      have hc := c.isLt
      rw [List.length_append, List.length_singleton] at h ⊢
      have hle := ih (by omega)
      have hpow := Nat.pow_le_pow_right (n := 16) (by omega) (show chars.length ≤ 3 by omega)
      rw [List.foldl_append, List.foldl_cons, List.foldl_nil, gabi_hash_step_toNat (by omega), pow_succ]
      omega
  obtain hnil | ⟨chars, c, hsplit⟩ := List.eq_nil_or_concat name.chars
  · exact absurd hnil hne
  rw [List.concat_eq_append] at hsplit
  have hnul : c.toNat ≠ 0 := by
    intro hzero
    have hc : c = 0#8 := BitVec.eq_of_toNat_eq hzero
    exact name.nonul (by simp [hsplit, hc])
  have hshort : chars.length ≤ 4 := by
    rw [hsplit, List.length_append, List.length_singleton] at hlen
    omega
  have hle := hsum chars hshort
  have hpow := Nat.pow_le_pow_right (n := 16) (by omega) hshort
  have hgabi : (gabi_hash name).toNat = 16 * (chars.foldl gabi_hash_step 0#32).toNat + c.toNat := by
    rw [gabi_hash, hsplit, List.foldl_append, List.foldl_cons, List.foldl_nil, gabi_hash_step_toNat (by omega)]
  have htail : high_tail name = high_step (chars.foldl high_step 0) c := by
    rw [high_tail, ← foldl_high_step, hsplit, List.foldl_append, List.foldl_cons, List.foldl_nil]
  intro heq
  have hval := congrArg BitVec.toNat heq
  rw [elf_hash_toNat, hgabi, htail, high_step] at hval
  split at hval
  · omega
  · next hhigh =>
    have hc : 128 ≤ c.toNat := by simpa [BitVec.lt_def] using hhigh
    omega

/-- The loader's hash is the published one on a name only if that one happens to
be the value of the name's tail: 0 for a name that does not end in such a byte. -/
theorem elf_hash_eq_gabi_hash_iff (name : CString) :
    elf_hash name = gabi_hash name ↔ (gabi_hash name).toNat = high_tail name := by
  rw [← BitVec.toNat_inj, elf_hash_toNat]
  exact eq_comm

/-- The letter `a` hashes to 0, not to its code. -/
theorem elf_hash_ascii : elf_hash (.lit "a") = 0 ∧ gabi_hash (.lit "a") = 0x61 := by
  decide

end symbol_resolution

namespace Object

open symbol_resolution

variable {sys : System} {m : Memory 64} {o : Object} {name : CString}

/-- Every symbol has a name of its own. -/
def UniqueNames (o : Object) : Prop := (o.file.symbols.map Symbol.name).Nodup

instance (o : Object) : Decidable o.UniqueNames := inferInstanceAs (Decidable (List.Nodup _))

theorem UniqueNames.eq_of_name (h : o.UniqueNames) {s u : Symbol} (hs : s ∈ o.file.symbols) (hu : u ∈ o.file.symbols)
    (hname : s.name = u.name) : s = u :=
  List.inj_on_of_nodup_map h hs hu hname

theorem gnu_entry_eq_of_unique (hgnu : o.gnu.isSome = true) (hunique : o.UniqueNames) {s : Symbol}
    (hs : s ∈ o.file.symbols) (hdef : s.Defined) : o.gnu_entry s.name = some s := by
  obtain ⟨u, hu⟩ := gnu_entry_of_defines hgnu ⟨s, hs, hdef, rfl⟩
  obtain ⟨hmem, hname⟩ := gnu_entry_named hu
  rw [hu, hunique.eq_of_name hmem hs hname]

/-- A defined symbol is found in the other table when the loader's hash selects
the bucket that the table has it in, and only then. -/
theorem sysv_entry_of_unique {v : elf_addr} {t : SysvHash o.file.symbols} (ht : o.sysv = some (v, t))
    (hunique : o.UniqueNames) {s : Symbol} (hs : s ∈ o.file.symbols) (hdef : s.Defined) :
    o.sysv_entry s.name =
      if elf_bucket t.buckets.length s.name = gabi_bucket t.buckets.length s.name then some s else none := by
  obtain ⟨i, hi⟩ := List.mem_iff_getElem?.mp hs
  split
  · next hbucket =>
    have hmem : s ∈ (t.entries (gabi_bucket t.buckets.length s.name)).filterMap fun i => o.file.symbols[i]? :=
      List.mem_filterMap.mpr ⟨i, t.complete i s hi hdef, hi⟩
    have hsome : (t.entry (elf_bucket t.buckets.length s.name) s.name).isSome = true := by
      rw [hbucket]
      exact List.find?_isSome.mpr ⟨s, hmem, by simp⟩
    obtain ⟨u, hu⟩ := Option.isSome_iff_exists.mp hsome
    have hentry : o.sysv_entry s.name = some u := by
      simpa [sysv_entry, ht] using hu
    obtain ⟨humem, huname⟩ := sysv_entry_named hentry
    rw [hentry, hunique.eq_of_name humem hs huname]
  · next hbucket =>
    cases hentry : o.sysv_entry s.name with
    | none => rfl
    | some u =>
      -- an entry of the wrong bucket has a name that belongs there
      have hfind : t.entry (elf_bucket t.buckets.length s.name) s.name = some u := by
        simpa [sysv_entry, ht] using hentry
      obtain ⟨j, hj, hju⟩ := List.mem_filterMap.mp (List.mem_of_find?_eq_some hfind)
      have huname := (sysv_entry_named hentry).2
      have hgabi := t.hashed _ j u (Nat.mod_lt _ t.buckets_pos) hj hju
      rw [huname] at hgabi
      exact absurd hgabi.symm hbucket

/-- The search of the SysV table agrees with that of the GNU table on a name the
object defines exactly when the name's tail falls into the bucket of its
published hash, or the definition is at the address 0, which both report as a miss. -/
theorem hash_lookup_eq_gnu_hash_lookup_iff (ho : o.Loaded sys m) (hgnu : o.gnu.isSome = true) {v : elf_addr}
    {t : SysvHash o.file.symbols} (ht : o.sysv = some (v, t)) (hunique : o.UniqueNames) (hdef : o.Defines name) :
    hash_lookup sys m o.node name = gnu_hash_lookup sys m o.node name ↔
      high_tail name % t.buckets.length = gabi_bucket t.buckets.length name ∨
        ∃ s ∈ o.file.symbols, s.name = name ∧ o.address s = 0 := by
  obtain ⟨s, hs, hsdef, rfl⟩ := hdef
  have hbucket : elf_bucket t.buckets.length s.name = high_tail s.name % t.buckets.length := by
    rw [elf_bucket, elf_hash_toNat]
  have haddr : (∃ u ∈ o.file.symbols, u.name = s.name ∧ o.address u = 0) ↔ o.address s = 0 := by
    constructor
    · rintro ⟨u, hu, hname, hzero⟩
      rwa [hunique.eq_of_name hu hs hname] at hzero
    · intro hzero
      exact ⟨s, hs, rfl, hzero⟩
  rw [hash_lookup_ready ho (Or.inl (by simp [ht])), gnu_hash_lookup_ready ho (Or.inl hgnu),
    gnu_entry_eq_of_unique hgnu hunique hs hsdef, sysv_entry_of_unique ht hunique hs hsdef, haddr, ← hbucket]
  split
  · next h => simp [h]
  · next h => simp [h, LinkMap.addressOf, address, eq_comm]

end Object

namespace symbol_resolution

/-- With a single bucket the hash does not matter. -/
theorem hash_lookup_one_bucket :
    hash_lookup importer_sys importer_memory definer.node (.lit "f") =
      gnu_hash_lookup importer_sys importer_memory definer.node (.lit "f") :=
  (Object.hash_lookup_eq_gnu_hash_lookup_iff (importer_loaded definer (by simp)) rfl rfl (by decide +kernel)
    (by decide +kernel)).mpr (Or.inl (by decide +kernel))

/-- The definer with four buckets: `f` hashes to 0x66 and lies in bucket 2. -/
def four_buckets : Object where
  node := definer.node
  file := definer.file
  gnu := definer.gnu
  sysv := some (0x300, {
    buckets := [0, 0, 1, 0]
    chain := [0, 0]
    entries := fun b => if b = 2 then [1] else []
    buckets_pos := by decide
    buckets_lt := by decide
    chain_length := rfl
    walk := by
      intro b n hn
      have hb := (List.getElem?_eq_some_iff.mp hn).1
      match b with
      | 0 | 1 | 3 => cases hn; rfl
      | 2 => cases hn; exact ⟨rfl, 0, rfl, rfl⟩
    hashed := by
      intro b i s hb hi hs
      split at hi
      · next htwo =>
        cases List.mem_singleton.mp hi
        cases hs
        exact htwo ▸ (by decide +kernel)
      · cases hi
    complete := by
      intro i s hs hdef
      match i with
      | 0 => cases hs; exact absurd rfl hdef
      | 1 => cases hs; decide +kernel })
  gnu_dyn := definer.gnu_dyn
  sysv_dyn := definer.sysv_dyn
  gnu_ne := definer.gnu_ne
  sysv_ne := by
    rintro v t ⟨⟩
    decide
  members := definer.members

/-- The loader's hash of `f` is 0, so the search of the SysV table looks into
bucket 0 and misses what the search of the GNU table finds. -/
theorem hash_lookup_misses_definition :
    four_buckets.Loaded importer_sys (four_buckets.place fun _ => none) ∧
    four_buckets.gnu.isSome = true ∧ four_buckets.sysv.isSome = true ∧
    four_buckets.UniqueNames ∧ four_buckets.Defines (.lit "f") ∧
    gnu_hash_lookup importer_sys (four_buckets.place fun _ => none) four_buckets.node (.lit "f") = .ok 0x2040 ∧
    hash_lookup importer_sys (four_buckets.place fun _ => none) four_buckets.node (.lit "f") = .ok 0 := by
  refine ⟨⟨(importer_loaded definer (by simp)).disk, ?_, ?_⟩, rfl, rfl, by decide +kernel, by decide +kernel,
    by decide +kernel, by decide +kernel⟩
  · rintro v t ⟨⟩
    decide +kernel
  · rintro v t ⟨⟩
    decide +kernel

end symbol_resolution

end ldso
