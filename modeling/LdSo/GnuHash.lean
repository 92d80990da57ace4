import LdSo.Object

open cmodel

namespace ldso

open symbol_resolution

/-- The linker's 32-bit symbol hash: `h * 33 + c`, starting from 5381. -/
def djb_hash (name : CString) : BitVec 32 :=
  name.chars.foldl (fun h c => h * 33#32 + c.setWidth 32) 5381#32

/-- The bucket a name belongs to. -/
def gnu_bucket (nbuckets : Nat) (name : CString) : Nat := (djb_hash name).toNat % nbuckets

/-- A DT_GNU_HASH table as the linker builds it over a symbol table. Its
members are the entries from `symoffset` on. -/
structure GnuHash (symbols : List Symbol) where
  symoffset : Nat
  shift : Nat
  bloom : List (BitVec 64)
  buckets : List (BitVec 32)
  chain : List (BitVec 32)
  /-- Entry 0 is the null symbol, which is never hashed. -/
  symoffset_pos : 0 < symoffset
  chain_length : symoffset + chain.length = symbols.length
  buckets_pos : 0 < buckets.length
  buckets_lt : buckets.length < 2 ^ 32
  bloom_length : ∃ k < 32, bloom.length = 2 ^ k
  shift_lt : shift < 32
  bloom_member : ∀ i s, symoffset ≤ i → symbols[i]? = some s →
    ∃ w, bloom[(djb_hash s.name).toNat / 64 % bloom.length]? = some w ∧
      w.getLsbD ((djb_hash s.name).toNat % 64) = true ∧
      w.getLsbD ((djb_hash s.name >>> shift).toNat % 64) = true
  grouped : ∀ i j k s t u, symoffset ≤ i → i ≤ j → j ≤ k →
    symbols[i]? = some s → symbols[j]? = some t → symbols[k]? = some u →
    gnu_bucket buckets.length s.name = gnu_bucket buckets.length u.name →
    gnu_bucket buckets.length t.name = gnu_bucket buckets.length s.name
  bucket_first : ∀ b n, buckets[b]? = some n →
    (n = 0 ∧ ∀ i s, symoffset ≤ i → symbols[i]? = some s → gnu_bucket buckets.length s.name ≠ b) ∨
    (∃ s, symoffset ≤ n.toNat ∧ symbols[n.toNat]? = some s ∧ gnu_bucket buckets.length s.name = b ∧
      ∀ i s', symoffset ≤ i → symbols[i]? = some s' → gnu_bucket buckets.length s'.name = b → n.toNat ≤ i)
  chain_word : ∀ i s, symoffset ≤ i → symbols[i]? = some s →
    ∃ w, chain[i - symoffset]? = some w ∧ w &&& ~~~1#32 = djb_hash s.name &&& ~~~1#32 ∧
      (w.getLsbD 0 = true ↔ ∀ j t, i < j → symbols[j]? = some t →
        gnu_bucket buckets.length t.name ≠ gnu_bucket buckets.length s.name)

namespace GnuHash

variable {symbols : List Symbol} (t : GnuHash symbols)

/-- The table's four header words. -/
def header : List (BitVec 32) :=
  [BitVec.ofNat 32 t.buckets.length, BitVec.ofNat 32 t.symoffset, BitVec.ofNat 32 t.bloom.length, BitVec.ofNat 32 t.shift]

/-- The table as it lies in memory: header, bloom filter, buckets, chain words. -/
def bytes : List Byte :=
  encodeArray 4 t.header ++ (encodeArray 8 t.bloom ++ (encodeArray 4 t.buckets ++ encodeArray 4 t.chain))

/-- The lowest-indexed member of that name. -/
def member (name : CString) : Option Symbol := (symbols.drop t.symoffset).find? fun s => s.name = name

/-- The reference search of a bucket: it stops at the word with the low bit set. -/
def chain_walk (name : CString) : Nat → Nat → Option Symbol
  | 0, _ => none
  | count + 1, i =>
    match symbols[i]?, t.chain[i - t.symoffset]? with
    | some s, some w =>
      if w &&& ~~~1#32 = djb_hash name &&& ~~~1#32 ∧ s.name = name then some s
      else if w.getLsbD 0 = true then none
      else chain_walk name count (i + 1)
    | _, _ => none

/-- The reference lookup: bloom filter, bucket, chain up to its end. -/
def reference (name : CString) : Option Symbol :=
  let h := djb_hash name
  match t.bloom[h.toNat / 64 % t.bloom.length]?, t.buckets[gnu_bucket t.buckets.length name]? with
  | some w, some n =>
    if w.getLsbD (h.toNat % 64) = true ∧ w.getLsbD ((h >>> t.shift).toNat % 64) = true ∧ n ≠ 0 then
      t.chain_walk name (symbols.length - n.toNat) n.toNat
    else none
  | _, _ => none

/-- The smallest table over a symbol table: one bucket, and a filter that
rejects nothing. -/
def single (symbols : List Symbol) (symoffset : Nat) (hpos : 0 < symoffset) (hle : symoffset ≤ symbols.length)
    (hlt : symbols.length < 2 ^ 31) : GnuHash symbols where
  symoffset := symoffset
  shift := 6
  bloom := [BitVec.allOnes 64]
  buckets := [if symoffset < symbols.length then BitVec.ofNat 32 symoffset else 0#32]
  chain := (symbols.drop symoffset).mapIdx fun i s =>
    (djb_hash s.name &&& ~~~1#32) ||| (if symoffset + i + 1 = symbols.length then 1#32 else 0#32)
  symoffset_pos := hpos
  chain_length := by
    simp only [List.length_mapIdx, List.length_drop]
    omega
  buckets_pos := by simp
  buckets_lt := by simp
  bloom_length := ⟨0, by decide, rfl⟩
  shift_lt := by decide
  bloom_member := by
    intro i s _ _
    have hbit : ∀ x, (BitVec.allOnes 64).getLsbD (x % 64) = true := by
      intro x
      rw [BitVec.getLsbD_allOnes, decide_eq_true_eq]
      omega
    exact ⟨BitVec.allOnes 64, by simp [Nat.mod_one], hbit _, hbit _⟩
  grouped := by simp [gnu_bucket, Nat.mod_one]
  bucket_first := by
    intro b n hn
    obtain ⟨hb, rfl⟩ := List.getElem?_eq_some_iff.mp hn
    have hzero : b = 0 := by simpa using hb
    subst hzero
    by_cases hmem : symoffset < symbols.length
    · refine Or.inr ⟨symbols[symoffset], ?_⟩
      have hnat : (BitVec.ofNat 32 symoffset).toNat = symoffset := by
        rw [BitVec.toNat_ofNat, Nat.mod_eq_of_lt (by omega)]
      simp only [List.getElem_cons_zero, if_pos hmem, hnat]
      refine ⟨le_rfl, List.getElem?_eq_getElem hmem, by simp [gnu_bucket, Nat.mod_one], ?_⟩
      intro i s' hi _ _
      exact hi
    · refine Or.inl ⟨by simp [hmem], ?_⟩
      intro i s hi hs
      have hlen := (List.getElem?_eq_some_iff.mp hs).1
      omega
  chain_word := by
    intro i s hi hs
    have hlen := (List.getElem?_eq_some_iff.mp hs).1
    have hget : (symbols.drop symoffset)[i - symoffset]? = some s := by
      rw [List.getElem?_drop, show symoffset + (i - symoffset) = i by omega]
      exact hs
    refine ⟨_, by rw [List.getElem?_mapIdx, hget, Option.map_some], ?_, ?_⟩
    · rw [BitVec.and_or_distrib_right]
      apply BitVec.eq_of_getLsbD_eq
      intro j hj
      by_cases hlast : symoffset + (i - symoffset) + 1 = symbols.length <;> cases j <;> simp [hlast]
    · have hlow : (djb_hash s.name &&& ~~~1#32).getLsbD 0 = false := by simp
      rw [BitVec.getLsbD_or, hlow, Bool.false_or, show symoffset + (i - symoffset) + 1 = i + 1 by omega]
      constructor
      · intro hbit j t hj ht
        have hjlen := (List.getElem?_eq_some_iff.mp ht).1
        have hlast : i + 1 = symbols.length := by
          by_contra hne
          simp [hne] at hbit
        omega
      · intro hnone
        have hlast : i + 1 = symbols.length := by
          by_contra hne
          exact hnone (i + 1) _ (by omega) (List.getElem?_eq_getElem (by omega)) (by simp [gnu_bucket, Nat.mod_one])
        simp [hlast]

/-- Entries in the order of their buckets, as the linker sorts them, lie together. -/
theorem grouped_of_sorted {symbols : List Symbol} {symoffset nbuckets : Nat}
    (hsorted : ((symbols.drop symoffset).map fun s => gnu_bucket nbuckets s.name).Pairwise (· ≤ ·))
    (i j k : Nat) (s t u : Symbol) (hi : symoffset ≤ i) (hij : i ≤ j) (hjk : j ≤ k) (hs : symbols[i]? = some s)
    (ht : symbols[j]? = some t) (hu : symbols[k]? = some u) (heq : gnu_bucket nbuckets s.name = gnu_bucket nbuckets u.name) :
    gnu_bucket nbuckets t.name = gnu_bucket nbuckets s.name := by
  have hle : ∀ a b x y, symoffset ≤ a → a ≤ b → symbols[a]? = some x → symbols[b]? = some y →
      gnu_bucket nbuckets x.name ≤ gnu_bucket nbuckets y.name := by
    intro a b x y ha hab hx hy
    obtain rfl | hlt := Nat.eq_or_lt_of_le hab
    · rw [Option.some.inj (hx.symm.trans hy)]
    · have hget : ∀ c z, symoffset ≤ c → symbols[c]? = some z →
          ((symbols.drop symoffset).map fun s => gnu_bucket nbuckets s.name)[c - symoffset]? =
            some (gnu_bucket nbuckets z.name) := by
        intro c z hc hz
        rw [List.getElem?_map, List.getElem?_drop, Nat.add_sub_cancel' hc, hz, Option.map_some]
      obtain ⟨hla, hxa⟩ := List.getElem?_eq_some_iff.mp (hget a x ha hx)
      obtain ⟨hlb, hyb⟩ := List.getElem?_eq_some_iff.mp (hget b y (ha.trans hab) hy)
      rw [← hxa, ← hyb]
      exact List.pairwise_iff_getElem.mp hsorted _ _ hla hlb (by omega)
  have hst := hle i j s t hi hij hs ht
  have htu := hle j k t u (hi.trans hij) hjk ht hu
  omega

end GnuHash

end ldso
