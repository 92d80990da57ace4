import LdSo.Object

open cmodel

namespace ldso

/-- One step of the System V gABI symbol hash. -/
def gabi_hash_step (h : BitVec 32) (c : Byte) : BitVec 32 :=
  let h := (h <<< 4) + c.setWidth 32
  let g := h &&& 0xf0000000#32
  (h ^^^ (g >>> 24)) &&& ~~~g

def gabi_hash (name : CString) : BitVec 32 := name.chars.foldl gabi_hash_step 0#32

def gabi_bucket (nbuckets : Nat) (name : CString) : Nat := (gabi_hash name).toNat % nbuckets

/-- A bucket or chain word as a link: 0 (STN_UNDEF) ends the chain. -/
def chain_link (w : BitVec 32) : Option Nat := if w = 0 then none else some w.toNat

@[simp] theorem chain_link_eq_none {w : BitVec 32} : chain_link w = none ↔ w = 0 := by
  simp [chain_link]

theorem chain_link_eq_some {w : BitVec 32} {i : Nat} : chain_link w = some i ↔ w ≠ 0 ∧ w.toNat = i := by
  simp [chain_link]

/-- A DT_HASH table laid out with the gABI hash over a symbol table. The chain
of each bucket visits the entries `entries b`, all of names that belong to it,
and every defined entry is on the chain of its name; undefined entries may be. -/
structure SysvHash (symbols : List Symbol) where
  buckets : List (BitVec 32)
  chain : List (BitVec 32)
  entries : Nat → List Nat
  buckets_pos : 0 < buckets.length
  buckets_lt : buckets.length < 2 ^ 32
  chain_length : chain.length = symbols.length
  walk : ∀ b n, buckets[b]? = some n → Chain chain_link chain (chain_link n) (entries b)
  hashed : ∀ b i s, b < buckets.length → i ∈ entries b → symbols[i]? = some s → gabi_bucket buckets.length s.name = b
  complete : ∀ i s, symbols[i]? = some s → s.Defined → i ∈ entries (gabi_bucket buckets.length s.name)

namespace SysvHash

variable {symbols : List Symbol} (t : SysvHash symbols)

/-- The table as it lies in memory: its two counts, buckets, chain words. -/
def bytes : List Byte :=
  encodeArray 4 [BitVec.ofNat 32 t.buckets.length, BitVec.ofNat 32 t.chain.length] ++
    (encodeArray 4 t.buckets ++ encodeArray 4 t.chain)

/-- The first entry of that name on the chain of bucket `b`. -/
def entry (b : Nat) (name : CString) : Option Symbol :=
  ((t.entries b).filterMap fun i => symbols[i]?).find? fun s => s.name = name

/-- The smallest table over a symbol table: one bucket whose chain visits every
entry but the null symbol. -/
def single (symbols : List Symbol) (hpos : 1 < symbols.length) (hlt : symbols.length < 2 ^ 31)
    (hnull : ∀ s, symbols[0]? = some s → ¬ s.Defined) : SysvHash symbols where
  buckets := [1#32]
  chain := (List.range symbols.length).map fun i =>
    if i = 0 ∨ i + 1 = symbols.length then 0#32 else BitVec.ofNat 32 (i + 1)
  entries _ := List.range' 1 (symbols.length - 1)
  buckets_pos := by simp
  buckets_lt := by simp
  chain_length := by simp
  walk := by
    intro b n hn
    obtain ⟨hb, rfl⟩ := List.getElem?_eq_some_iff.mp hn
    have hzero : b = 0 := by simpa using hb
    subst hzero
    have hwalk : ∀ k i, 0 < i → i + k + 1 = symbols.length →
        Chain chain_link ((List.range symbols.length).map fun i =>
          if i = 0 ∨ i + 1 = symbols.length then 0#32 else BitVec.ofNat 32 (i + 1))
          (some i) (List.range' i (k + 1)) := by
      intro k
      induction k with
      | zero =>
        intro i hi hend
        refine ⟨rfl, 0#32, ?_, by simp [Chain]⟩
        simp only [List.getElem?_map, List.getElem?_range (show i < symbols.length by omega), Option.map_some]
        rw [if_pos (Or.inr (by omega))]
      | succ k ih =>
        intro i hi hend
        rw [List.range'_succ]
        refine ⟨rfl, BitVec.ofNat 32 (i + 1), ?_, ?_⟩
        · simp only [List.getElem?_map, List.getElem?_range (show i < symbols.length by omega), Option.map_some]
          rw [if_neg (by omega)]
        · have hnat : (BitVec.ofNat 32 (i + 1)).toNat = i + 1 := by
            rw [BitVec.toNat_ofNat, Nat.mod_eq_of_lt (by omega)]
          have hlink : chain_link (BitVec.ofNat 32 (i + 1)) = some (i + 1) := by
            refine chain_link_eq_some.mpr ⟨?_, hnat⟩
            intro h
            rw [h] at hnat
            simp at hnat
          rw [hlink]
          exact ih (i + 1) (by omega) (by omega)
    have h := hwalk (symbols.length - 2) 1 (by omega) (by omega)
    rw [show symbols.length - 2 + 1 = symbols.length - 1 by omega] at h
    exact h
  hashed := by
    intro b i s hb _ _
    simp only [List.length_singleton, Nat.lt_one_iff] at hb
    simp [gabi_bucket, Nat.mod_one, hb]
  complete := by
    intro i s hs hdef
    have hlen := (List.getElem?_eq_some_iff.mp hs).1
    have hne : i ≠ 0 := by
      rintro rfl
      exact hnull s hs hdef
    rw [List.mem_range'_1]
    omega

end SysvHash

end ldso
