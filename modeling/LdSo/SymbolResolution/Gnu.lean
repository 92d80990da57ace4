import LdSo.GnuHash

open cmodel

namespace ldso.symbol_resolution

open elf elf_manipulation

private theorem gnu_hash_step (h : BitVec 64) (c : Byte) :
    ((h <<< 5) + h + c.setWidth 64).setWidth 32 = (h.setWidth 32) * 33#32 + c.setWidth 32 := by
  apply BitVec.eq_of_toNat_eq
  have hc := c.isLt
  simp only [BitVec.toNat_setWidth, BitVec.toNat_add, BitVec.toNat_mul, BitVec.toNat_shiftLeft,
    BitVec.toNat_ofNat, Nat.shiftLeft_eq]
  omega

/-- The wide accumulator of the loader agrees with the linker's 32-bit hash. -/
theorem gnu_hash_eq_djb_hash (name : CString) : gnu_hash name = djb_hash name := by
  have hfold : ∀ (cs : List Byte) (h : BitVec 64),
      (cs.foldl (fun (h : BitVec 64) ch => (h <<< 5) + h + ch.setWidth 64) h).setWidth 32 =
        cs.foldl (fun h c => h * 33#32 + c.setWidth 32) (h.setWidth 32) := by
    intro cs
    induction cs with
    | nil => intro h; rfl
    | cons c cs ih =>
      intro h
      simp only [List.foldl_cons, ih, gnu_hash_step]
  have hmask : ∀ h : BitVec 64, (h &&& 0xffffffff#64).setWidth 32 = h.setWidth 32 := by
    intro h
    apply BitVec.eq_of_toNat_eq
    simp only [BitVec.toNat_setWidth, BitVec.toNat_and, BitVec.toNat_ofNat]
    rw [show 0xffffffff % 2 ^ 64 = 2 ^ 32 - 1 from rfl, Nat.and_two_pow_sub_one_eq_mod, Nat.mod_mod]
  unfold gnu_hash djb_hash
  simp only [hmask, hfold]
  rfl

/-- The filter test looks at exactly the two bits of the mask. -/
theorem bloom_test (w : BitVec 64) {a b : Nat} (ha : a < 64) (hb : b < 64) :
    w &&& (1#64 <<< a ||| 1#64 <<< b) = (1#64 <<< a ||| 1#64 <<< b) ↔
      w.getLsbD a = true ∧ w.getLsbD b = true := by
  have hbit : ∀ c i, i < 64 → (1#64 <<< c).getLsbD i = decide (i = c) := by
    intro c i hi
    simp only [BitVec.getLsbD_shiftLeft, hi, decide_true, Bool.true_and, BitVec.getLsbD_one]
    grind
  constructor
  · intro h
    have hbits : ∀ i < 64, (i = a ∨ i = b) → w.getLsbD i = true := by
      intro i hi hor
      have hi' := congrArg (fun v => v.getLsbD i) h
      simp only [BitVec.getLsbD_and, BitVec.getLsbD_or, hbit a i hi, hbit b i hi] at hi'
      obtain rfl | rfl := hor <;> simpa using hi'
    exact ⟨hbits a ha (Or.inl rfl), hbits b hb (Or.inr rfl)⟩
  · rintro ⟨hwa, hwb⟩
    apply BitVec.eq_of_getLsbD_eq
    intro i hi
    simp only [BitVec.getLsbD_and, BitVec.getLsbD_or, hbit a i hi, hbit b i hi]
    by_cases hia : i = a
    · simp [hia, hwa]
    · by_cases hib : i = b
      · simp [hib, hwb]
      · simp [hia, hib]

section Table

variable {m : Memory 64} {o : ObjectFile} {base : elf_addr} (t : GnuHash o.symbols)

/-- The parts of a table lie one behind the other. -/
theorem holds_parts (hm : m.Holds base t.bytes) :
    m.Holds base (encodeArray 4 t.header) ∧
    m.Holds (base + 16#64) (encodeArray 8 t.bloom) ∧
    m.Holds (base + 16#64 + 8#64 * BitVec.ofNat 64 t.bloom.length) (encodeArray 4 t.buckets) ∧
    m.Holds (base + 16#64 + 8#64 * BitVec.ofNat 64 t.bloom.length + 4#64 * BitVec.ofNat 64 t.buckets.length)
      (encodeArray 4 t.chain) := by
  unfold GnuHash.bytes at hm
  rw [Memory.holds_append, Memory.holds_append, Memory.holds_append] at hm
  simp only [encodeArray_length, BitVec.ofNat_mul] at hm
  exact hm

theorem load_header (hm : m.Holds base t.bytes) {i : Nat} {v : BitVec 32} (hv : t.header[i]? = some v) :
    m.loadWord 32 (base + BitVec.ofNat 64 (4 * i)) = .ok v := by
  obtain ⟨hi, hget⟩ := List.getElem?_eq_some_iff.mp hv
  rw [← hget]
  exact (holds_parts t hm).1.loadWord_array (w := 32) rfl hi

theorem load_bloom (hm : m.Holds base t.bytes) {i : Nat} {w : BitVec 64} (hw : t.bloom[i]? = some w) :
    m.loadWord 64 (base + 16#64 + 8#64 * BitVec.ofNat 64 i) = .ok w := by
  obtain ⟨hi, hget⟩ := List.getElem?_eq_some_iff.mp hw
  have hload := (holds_parts t hm).2.1.loadWord_array (w := 64) rfl hi
  rwa [BitVec.ofNat_mul, hget] at hload

theorem load_bucket (hm : m.Holds base t.bytes) {i : Nat} {n : BitVec 32} (hn : t.buckets[i]? = some n) :
    m.loadWord 32 (base + 16#64 + 8#64 * BitVec.ofNat 64 t.bloom.length + 4#64 * BitVec.ofNat 64 i) = .ok n := by
  obtain ⟨hi, hget⟩ := List.getElem?_eq_some_iff.mp hn
  have hload := (holds_parts t hm).2.2.1.loadWord_array (w := 32) rfl hi
  rwa [BitVec.ofNat_mul, hget] at hload

/-- Reading a chain word from its member's index. -/
theorem load_chain (hm : m.Holds base t.bytes) {i : Nat} {w : BitVec 32} (hw : t.chain[i]? = some w) :
    m.loadWord 32 (base + 16#64 + 8#64 * BitVec.ofNat 64 t.bloom.length +
      4#64 * BitVec.ofNat 64 t.buckets.length + 4#64 * BitVec.ofNat 64 i) = .ok w := by
  obtain ⟨hi, hget⟩ := List.getElem?_eq_some_iff.mp hw
  have hload := (holds_parts t hm).2.2.2.loadWord_array (w := 32) rfl hi
  rwa [BitVec.ofNat_mul, hget] at hload

/-- The scan from index `sym` on returns the first entry of that name. Members
past the end of the bucket are compared too, and none of them matters: equal
names have equal chain words. -/
theorem gnu_scan_eq_find (next : LinkMap) (hm : m.Holds base t.bytes) (rela_name : CString) (count : Nat) :
    ∀ sym, t.symoffset ≤ sym → sym + count = o.symbols.length →
      gnu_scan m (syms o.dynsym) (some o.dynstr) rela_name (djb_hash rela_name &&& ~~~1#32) next.l_addr count sym
        (base + 16#64 + 8#64 * BitVec.ofNat 64 t.bloom.length + 4#64 * BitVec.ofNat 64 t.buckets.length +
          4#64 * BitVec.ofNat 64 (sym - t.symoffset)) =
      .ok (next.addressOf ((o.symbols.drop sym).find? fun s => s.name = rela_name)) := by
  induction count with
  | zero =>
    intro sym _ hend
    rw [List.drop_eq_nil_of_le (by omega)]
    rfl
  | succ count ih =>
    intro sym hlow hend
    have hlt : sym < o.symbols.length := by omega
    have hget : o.symbols[sym]? = some o.symbols[sym] := List.getElem?_eq_getElem hlt
    obtain ⟨w, hw, hhash, -⟩ := t.chain_word sym _ hlow hget
    have hnext := ih (sym + 1) (by omega) (by omega)
    have haddr : 4#64 * BitVec.ofNat 64 (sym + 1 - t.symoffset) = 4#64 * BitVec.ofNat 64 (sym - t.symoffset) + 4#64 := by
      rw [show sym + 1 - t.symoffset = sym - t.symoffset + 1 by omega, BitVec.ofNat_add, BitVec.mul_add]
      rfl
    rw [haddr, ← BitVec.add_assoc] at hnext
    rw [List.drop_eq_getElem_cons hlt, gnu_scan, load_chain t hm hw, Outcome.ok_bind, hhash]
    split
    · obtain ⟨d, hd, hiff⟩ := ObjectFile.strcmp_symbol (o := o) (List.getElem_mem hlt) rela_name
      rw [ObjectFile.syms_getElem?, hget, Option.map_some, Outcome.ofOption_some, Outcome.ok_bind, hd, Outcome.ok_bind]
      by_cases hname : rela_name = o.symbols[sym].name
      · rw [if_pos (hiff.mpr hname), List.find?_cons_of_pos (by simp [hname])]
        rfl
      · rw [if_neg fun h => hname (hiff.mp h), List.find?_cons_of_neg (by simpa using Ne.symm hname)]
        exact hnext
    · next hne =>
      have hname : o.symbols[sym].name ≠ rela_name := fun h => hne (by rw [h])
      rw [List.find?_cons_of_neg (by simpa using hname)]
      exact hnext

end Table

section Members

variable {symbols : List Symbol} (t : GnuHash symbols) {name : CString}

/-- Entries that are skipped because none has the name do not change the first match. -/
private theorem find_drop_eq {n k : Nat} (hnk : n ≤ k)
    (hskip : ∀ i s, n ≤ i → i < k → symbols[i]? = some s → s.name ≠ name) :
    ((symbols.drop n).find? fun s => s.name = name) = (symbols.drop k).find? fun s => s.name = name := by
  obtain ⟨d, rfl⟩ := Nat.exists_eq_add_of_le hnk
  induction d with
  | zero => rfl
  | succ d ih =>
    rw [ih (by omega) fun i s hi hik => hskip i s hi (by omega)]
    by_cases hlt : n + d < symbols.length
    · have hne := hskip (n + d) _ (by omega) (by omega) (List.getElem?_eq_getElem hlt)
      rw [List.drop_eq_getElem_cons hlt, List.find?_cons_of_neg (by simpa using hne)]
      rfl
    · rw [List.drop_eq_nil_of_le (by omega), List.drop_eq_nil_of_le (by omega)]

/-- Without a member of that name the member search misses. -/
theorem member_eq_none (h : ∀ i s, t.symoffset ≤ i → symbols[i]? = some s → s.name ≠ name) :
    t.member name = none := by
  unfold GnuHash.member
  rw [find_drop_eq (k := symbols.length) (by have := t.chain_length; omega) fun i s hi _ => h i s hi]
  simp

/-- The filter never rejects a member. -/
theorem bloom_of_member {i : Nat} {s : Symbol} (hi : t.symoffset ≤ i) (hs : symbols[i]? = some s)
    (hname : s.name = name) {w : BitVec 64} (hw : t.bloom[(djb_hash name).toNat / 64 % t.bloom.length]? = some w) :
    w.getLsbD ((djb_hash name).toNat % 64) = true ∧ w.getLsbD ((djb_hash name >>> t.shift).toNat % 64) = true := by
  obtain ⟨w', hw', hbits⟩ := t.bloom_member i s hi hs
  rw [hname] at hw' hbits
  rw [Option.some.inj (hw.symm.trans hw')]
  exact hbits

/-- An empty bucket has no member of that name, and a bucket that is not empty
begins no later than the first of them. -/
theorem member_eq_find_bucket {n : BitVec 32} (hn : t.buckets[gnu_bucket t.buckets.length name]? = some n) :
    t.member name = if n = 0 then none else (symbols.drop n.toNat).find? fun s => s.name = name := by
  obtain ⟨hzero, hnone⟩ | ⟨s, hlow, hs, hbucket, hfirst⟩ := t.bucket_first _ n hn
  · rw [if_pos hzero]
    refine member_eq_none t fun i s hi hs hname => hnone i s hi hs ?_
    rw [hname]
  · have hpos := t.symoffset_pos
    have hne : n ≠ 0 := by
      rintro rfl
      simp at hlow
      omega
    rw [if_neg hne]
    refine find_drop_eq hlow fun i s' hi hin hs' hname => ?_
    have hle := hfirst i s' hi hs' (by rw [hname])
    omega

/-- The reference search from inside the bucket sees every entry of that name
before it stops: an entry followed by one of the same name is never the last
of the bucket. -/
theorem chain_walk_eq_find {first : Nat} {s₀ : Symbol} (hlow : t.symoffset ≤ first) (hs₀ : symbols[first]? = some s₀)
    (hbucket : gnu_bucket t.buckets.length s₀.name = gnu_bucket t.buckets.length name) (count : Nat) :
    ∀ i, first ≤ i → i + count = symbols.length →
      t.chain_walk name count i = (symbols.drop i).find? fun s => s.name = name := by
  induction count with
  | zero =>
    intro i _ hend
    rw [List.drop_eq_nil_of_le (by omega)]
    rfl
  | succ count ih =>
    intro i hi hend
    have hlt : i < symbols.length := by omega
    have hget : symbols[i]? = some symbols[i] := List.getElem?_eq_getElem hlt
    obtain ⟨w, hw, hhash, hlast⟩ := t.chain_word i _ (by omega) hget
    rw [List.drop_eq_getElem_cons hlt]
    simp only [GnuHash.chain_walk, hget, hw, hhash]
    by_cases hname : symbols[i].name = name
    · rw [if_pos ⟨by rw [hname], hname⟩, List.find?_cons_of_pos (by simpa using hname)]
    · rw [if_neg fun h => hname h.2, List.find?_cons_of_neg (by simpa using hname), ih (i + 1) (by omega) (by omega)]
      by_cases hbit : w.getLsbD 0 = true
      · rw [if_pos hbit]
        symm
        rw [List.find?_eq_none]
        intro u hu
        obtain ⟨k, hk⟩ := List.mem_iff_getElem?.mp hu
        rw [List.getElem?_drop] at hk
        simp only [decide_eq_true_eq]
        intro huname
        have hgroup := t.grouped first i (i + 1 + k) s₀ symbols[i] u hlow hi (by omega) hs₀ hget hk
          (by rw [huname, hbucket])
        exact hlast.mp hbit (i + 1 + k) u (by omega) hk (by rw [huname, ← hbucket, hgroup])
      · rw [if_neg hbit]

/-- A bucket and its filter word exist for every name. -/
theorem bucket_and_word (name : CString) :
    ∃ w n, t.bloom[(djb_hash name).toNat / 64 % t.bloom.length]? = some w ∧
      t.buckets[gnu_bucket t.buckets.length name]? = some n := by
  obtain ⟨k, -, hk⟩ := t.bloom_length
  have hbloom : 0 < t.bloom.length := hk ▸ Nat.two_pow_pos k
  exact ⟨_, _, List.getElem?_eq_getElem (Nat.mod_lt _ hbloom), List.getElem?_eq_getElem (Nat.mod_lt _ t.buckets_pos)⟩

/-- A bucket word that is not zero is the index of a member. -/
theorem bucket_member {n : BitVec 32} {b : Nat} (hn : t.buckets[b]? = some n) (hne : n ≠ 0) :
    ∃ s, t.symoffset ≤ n.toNat ∧ symbols[n.toNat]? = some s ∧ gnu_bucket t.buckets.length s.name = b := by
  obtain ⟨hzero, -⟩ | ⟨s, hlow, hs, hb, -⟩ := t.bucket_first b n hn
  · exact absurd hzero hne
  · exact ⟨s, hlow, hs, hb⟩

/-- The reference lookup finds the lowest-indexed member of the name. -/
theorem reference_eq_member (name : CString) : t.reference name = t.member name := by
  obtain ⟨w, n, hw, hn⟩ := bucket_and_word t name
  have hbucket := member_eq_find_bucket t hn
  simp only [GnuHash.reference, hw, hn]
  split
  · next htest =>
    rw [hbucket, if_neg htest.2.2]
    obtain ⟨s, hlow, hs, hsame⟩ := bucket_member t hn htest.2.2
    have hlt := (List.getElem?_eq_some_iff.mp hs).1
    exact chain_walk_eq_find t hlow hs hsame _ n.toNat le_rfl (by omega)
  · next htest =>
    by_cases hzero : n = 0
    · rw [hbucket, if_pos hzero]
    · symm
      refine member_eq_none t fun i s hi hs hname => htest ?_
      obtain ⟨h1, h2⟩ := bloom_of_member t hi hs hname hw
      exact ⟨h1, h2, hzero⟩

end Members

section Lookup

variable {sys : System} {m : Memory 64} {next : LinkMap} {o : ObjectFile} {addr base : elf_addr}

private theorem toNat_count {x : Nat} (hx : x < 2 ^ 32) : (BitVec.ofNat 32 x).toNat = x := by
  rw [BitVec.toNat_ofNat, Nat.mod_eq_of_lt hx]

private theorem setWidth_count {x : Nat} (hx : x < 2 ^ 32) : (BitVec.ofNat 32 x).setWidth 64 = BitVec.ofNat 64 x := by
  apply BitVec.eq_of_toNat_eq
  rw [BitVec.toNat_setWidth, BitVec.toNat_ofNat, BitVec.toNat_ofNat, Nat.mod_eq_of_lt hx]

private theorem count_ne_zero {x : Nat} (hpos : 0 < x) (hx : x < 2 ^ 32) : BitVec.ofNat 32 x ≠ 0 := by
  intro h
  have hnat := congrArg BitVec.toNat h
  rw [toNat_count hx] at hnat
  exact hpos.ne' hnat

/-- On a well-formed table the search returns the address of the lowest-indexed
member of the name. -/
theorem gnu_table_search_eq (t : GnuHash o.symbols) (hm : m.Holds base t.bytes) (next : LinkMap)
    (rela_name : CString) :
    gnu_table_search m (syms o.dynsym) (some o.dynstr) rela_name next.l_addr o.symbols.length base =
      .ok (next.addressOf (t.member rela_name)) := by
  obtain ⟨w, n, hw, hn⟩ := bucket_and_word t rela_name
  obtain ⟨k, hk, hpow⟩ := t.bloom_length
  have hbloom_lt : t.bloom.length < 2 ^ 32 := hpow ▸ Nat.pow_lt_pow_right (by decide) hk
  have hbloom_pos : 0 < t.bloom.length := hpow ▸ Nat.two_pow_pos k
  have hcount := o.count_lt
  have hchain := t.chain_length
  have hshift := t.shift_lt
  have h0 := load_header t hm (i := 0) rfl
  rw [Nat.mul_zero, BitVec.add_zero] at h0
  have h4 : m.loadWord 32 (base + 4#64) = .ok (BitVec.ofNat 32 t.symoffset) := load_header t hm (i := 1) rfl
  have h8 : m.loadWord 32 (base + 8#64) = .ok (BitVec.ofNat 32 t.bloom.length) := load_header t hm (i := 2) rfl
  have h12 : m.loadWord 32 (base + 12#64) = .ok (BitVec.ofNat 32 t.shift) := load_header t hm (i := 3) rfl
  have hbucket := member_eq_find_bucket t hn
  simp only [gnu_table_search, gnu_hash_eq_djb_hash, h0, h4, h8, h12, Outcome.ok_bind,
    toNat_count hbloom_lt, toNat_count t.buckets_lt, toNat_count (hshift.trans (by decide)),
    setWidth_count hbloom_lt, setWidth_count t.buckets_lt, load_bloom t hm hw]
  rw [if_neg (by simp only [count_ne_zero hbloom_pos hbloom_lt, or_false]; omega)]
  split
  · next hreject =>
    -- a rejected name is the name of no member
    rw [ne_eq, bloom_test w (Nat.mod_lt _ (by decide)) (Nat.mod_lt _ (by decide))] at hreject
    rw [member_eq_none t fun i s hi hs hname => hreject (bloom_of_member t hi hs hname hw)]
    rfl
  · rw [if_neg (count_ne_zero t.buckets_pos t.buckets_lt)]
    have hload := load_bucket t hm hn
    unfold gnu_bucket at hload
    rw [hload, Outcome.ok_bind, hbucket]
    split
    · rfl
    · next hne =>
      obtain ⟨s, hlow, hs, -⟩ := bucket_member t hn hne
      have hlt := (List.getElem?_eq_some_iff.mp hs).1
      have hoff : 4#64 * BitVec.setWidth 64 n - 4#64 * (BitVec.ofNat 32 t.symoffset).setWidth 64 =
          4#64 * BitVec.ofNat 64 (n.toNat - t.symoffset) := by
        rw [setWidth_count (by omega), ← BitVec.ofNat_toNat]
        have hsplit : BitVec.ofNat 64 n.toNat = BitVec.ofNat 64 (n.toNat - t.symoffset) + BitVec.ofNat 64 t.symoffset := by
          rw [← BitVec.ofNat_add, Nat.sub_add_cancel hlow]
        rw [hsplit]
        ring
      rw [add_sub_assoc, hoff]
      exact gnu_scan_eq_find t next hm rela_name _ n.toNat hlow (by omega)

/-- An object without the table whose `l_addr` is zero is skipped. -/
theorem gnu_hash_lookup_null (ho : o.OnDisk sys next.l_name) (hdyn : find_dyn DT_GNU_HASH (dyns o.dynamic) = .ok addr)
    (hnull : addr + next.l_addr = 0) (rela_name : CString) : gnu_hash_lookup sys m next rela_name = .ok 0 := by
  simp only [gnu_hash_lookup, get_hashtab, ho.ehdr, ho.dynstr, ho.dynamic, Outcome.ok_bind, Outcome.ofOption_some,
    hdyn, hnull, if_true]

/-- Any other object is searched at its table's address, or at `l_addr` itself
when it has no table. -/
theorem gnu_hash_lookup_eq_search (ho : o.OnDisk sys next.l_name)
    (hdyn : find_dyn DT_GNU_HASH (dyns o.dynamic) = .ok addr) (hne : addr + next.l_addr ≠ 0) (rela_name : CString) :
    gnu_hash_lookup sys m next rela_name =
      gnu_table_search m (syms o.dynsym) (some o.dynstr) rela_name next.l_addr o.symbols.length (addr + next.l_addr) := by
  simp only [gnu_hash_lookup, get_hashtab, ho.ehdr, ho.dynstr, ho.dynamic, ho.dynsym, ho.size, Outcome.ok_bind,
    Outcome.ofOption_some, hdyn, hne, if_false, ObjectFile.size_t_count, Option.getD_some]

/-- The lookup in an object with a well-formed table finds the lowest-indexed
member of the name. -/
theorem gnu_hash_lookup_eq_member (ho : o.OnDisk sys next.l_name) (t : GnuHash o.symbols)
    (hdyn : find_dyn DT_GNU_HASH (dyns o.dynamic) = .ok addr) (hne : addr + next.l_addr ≠ 0)
    (hm : m.Holds (addr + next.l_addr) t.bytes) (rela_name : CString) :
    gnu_hash_lookup sys m next rela_name = .ok (next.addressOf (t.member rela_name)) := by
  rw [gnu_hash_lookup_eq_search ho hdyn hne, gnu_table_search_eq t hm next rela_name]

/-- For every well-formed DT_GNU_HASH table and every name: the loader's hash
is the linker's, the lookup returns the address of the lowest-indexed member of
the name (0 when there is none), which is what the reference search that stops
at the end of the chain finds, and it reads nothing but the table: it returns
the same when the rest of the memory is unmapped. -/
theorem gnu_hash_lookup_eq_reference (ho : o.OnDisk sys next.l_name) (t : GnuHash o.symbols)
    (hdyn : find_dyn DT_GNU_HASH (dyns o.dynamic) = .ok addr) (hne : addr + next.l_addr ≠ 0)
    (hm : m.Holds (addr + next.l_addr) t.bytes) (rela_name : CString) :
    gnu_hash rela_name = djb_hash rela_name ∧
    gnu_hash_lookup sys m next rela_name = .ok (next.addressOf (t.member rela_name)) ∧
    gnu_hash_lookup sys m next rela_name = .ok (next.addressOf (t.reference rela_name)) ∧
    gnu_hash_lookup sys (m.only ⟨addr + next.l_addr, t.bytes.length⟩) next rela_name =
      gnu_hash_lookup sys m next rela_name := by
  have hmember := gnu_hash_lookup_eq_member ho t hdyn hne hm rela_name
  refine ⟨gnu_hash_eq_djb_hash rela_name, hmember, ?_, ?_⟩
  · rw [reference_eq_member, hmember]
  · rw [gnu_hash_lookup_eq_member ho t hdyn hne hm.only rela_name, hmember]

/-- An import `i`, and three members in two buckets: `cd` and `ab`, then `ac`, whose
hash is that of `ab` but for the low bit. -/
def two_bucket_file : ObjectFile :=
  .of_symbols [⟨.lit "", 0, 0, 0, 0⟩, ⟨.lit "i", 1, 0, 0, 0⟩, ⟨.lit "cd", 3, 7, 0x40, 0⟩, ⟨.lit "ab", 6, 7, 0x50, 0⟩,
      ⟨.lit "ac", 9, 7, 0x60, 0⟩]
    ((CString.lit "").bytes ++ (CString.lit "i").bytes ++ (CString.lit "cd").bytes ++ (CString.lit "ab").bytes ++
      (CString.lit "ac").bytes)
    [⟨DT_GNU_HASH, 0x200⟩, ⟨DT_NULL, 0⟩] (by decide +kernel) (by decide)

def two_bucket_table : GnuHash two_bucket_file.symbols where
  symoffset := 2
  shift := 9
  bloom := [0x800030000000000, 0x800100000000000]
  buckets := [2, 4]
  chain := [0x59776c, 0x597729, 0x597729]
  symoffset_pos := by decide
  chain_length := by decide
  buckets_pos := by decide
  buckets_lt := by decide
  bloom_length := ⟨1, by decide, rfl⟩
  shift_lt := by decide
  bloom_member := by
    intro i s hi hs
    match i with
    | 0 | 1 => omega
    | 2 | 3 | 4 =>
      cases hs
      exact ⟨_, rfl, by decide +kernel, by decide +kernel⟩
    | i + 5 => cases hs
  grouped := GnuHash.grouped_of_sorted (by decide +kernel)
  bucket_first := by
    intro b n hn
    match b with
    | 0 =>
      cases hn
      exact Or.inr ⟨_, by decide, rfl, by decide +kernel, fun i _ hi _ _ => hi⟩
    | 1 =>
      cases hn
      refine Or.inr ⟨_, by decide, rfl, by decide +kernel, fun i s hi hs hb => ?_⟩
      match i with
      | 0 | 1 => omega
      | 2 | 3 =>
        cases hs
        exact absurd hb (by decide +kernel)
      | i + 4 => exact Nat.le_add_left 4 i
    | b + 2 => cases hn
  chain_word := by
    intro i s hi hs
    have hlater : ∀ j t, 4 < j → two_bucket_file.symbols[j]? ≠ some t := by
      intro j t hj ht
      have hlt : j < 5 := (List.getElem?_eq_some_iff.mp ht).1
      omega
    match i with
    | 0 | 1 => omega
    | 2 =>
      cases hs
      refine ⟨_, rfl, by decide +kernel, iff_of_false (by decide) fun h => ?_⟩
      exact h 3 _ (by decide) rfl (by decide +kernel)
    | 3 =>
      cases hs
      refine ⟨_, rfl, by decide +kernel, iff_of_true (by decide) fun j t hj ht => ?_⟩
      match j with
      | 4 =>
        cases ht
        decide +kernel
      | j + 5 => exact absurd ht (hlater _ t (by omega))
    | 4 =>
      cases hs
      exact ⟨_, rfl, by decide +kernel, iff_of_true (by decide) fun j t hj ht => absurd ht (hlater j t hj)⟩
    | i + 5 => cases hs

/-- Both ends of a chain are found. `bA` has the hash of `ab` and is not in the table:
its search stops at the end of the first chain, although the next word agrees with
the hash as well. -/
theorem gnu_hash_lookup_two_buckets :
    let next : LinkMap := ⟨0x1000, .lit "a.so", none, none, none⟩
    let sys := System.of_files [(.lit "a.so", two_bucket_file.content)]
    let m : Memory 64 := (Memory.mmap (fun _ => none) ⟨0x1200, 0x100⟩ ⟨true, false, false⟩).put 0x1200
      two_bucket_table.bytes
    gnu_hash_lookup sys m next (.lit "cd") = .ok 0x1040 ∧ gnu_hash_lookup sys m next (.lit "ab") = .ok 0x1050 ∧
      gnu_hash_lookup sys m next (.lit "ac") = .ok 0x1060 ∧ gnu_hash_lookup sys m next (.lit "bA") = .ok 0 ∧
      djb_hash (.lit "bA") = djb_hash (.lit "ab") ∧ two_bucket_table.reference (.lit "bA") = none := by
  intro next sys m
  have hdisk : two_bucket_file.OnDisk sys next.l_name := by
    decide +kernel
  have hdyn : find_dyn DT_GNU_HASH (dyns two_bucket_file.dynamic) = .ok 0x200 := by decide +kernel
  have hm : m.Holds (0x200 + next.l_addr) two_bucket_table.bytes := by decide +kernel
  have hlookup : ∀ rela_name, gnu_hash_lookup sys m next rela_name =
      .ok (next.addressOf (two_bucket_table.member rela_name)) := fun rela_name =>
    (gnu_hash_lookup_eq_reference hdisk two_bucket_table hdyn (by decide) hm rela_name).2.1
  simp only [hlookup]
  decide +kernel

end Lookup

end ldso.symbol_resolution
