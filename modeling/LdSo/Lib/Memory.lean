import LdSo.Lib.Bytes
import Mathlib.Data.BitVec

namespace cmodel

/-- Page protection. -/
structure Prot where
  r : Bool
  w : Bool
  x : Bool
  deriving DecidableEq, Repr

/-- Hardware lets every page be read that is mapped with any permission. -/
def Prot.readable (p : Prot) : Bool := p.r || p.w || p.x

/-- A mapped byte. -/
structure Cell where
  val : Byte
  prot : Prot
  deriving DecidableEq, Repr

/-- A byte-addressed memory with `n`-bit addresses; unmapped addresses hold nothing. -/
abbrev Memory (n : Nat) := BitVec n → Option Cell

/-- The addresses `base`, `base + 1`, .. of a range of `size` bytes; it may
wrap around the end of the address space. -/
structure Region (n : Nat) where
  base : BitVec n
  size : Nat
  deriving DecidableEq

namespace Region

variable {n : Nat}

/-- Membership of an address. -/
def Contains (r : Region n) (a : BitVec n) : Prop := (a - r.base).toNat < r.size

instance (r : Region n) (a : BitVec n) : Decidable (r.Contains a) :=
  inferInstanceAs (Decidable (_ < _))

/-- No address belongs to both. -/
def Disjoint (r s : Region n) : Prop := ∀ a, r.Contains a → ¬ s.Contains a

theorem Disjoint.symm {r s : Region n} (h : r.Disjoint s) : s.Disjoint r :=
  fun a hs hr => h a hr hs

/-- Two ranges meet exactly when one of them contains the base of the other,
so that neither does is a decidable test for disjointness. -/
theorem disjoint_of_bases {r s : Region n}
    (hrs : r.size ≤ (s.base - r.base).toNat) (hsr : s.size ≤ (r.base - s.base).toNat) :
    r.Disjoint s := by
  intro a hr hs
  simp only [Contains] at hr hs
  have hsum : (s.base - r.base) = (a - r.base) - (a - s.base) := by ring
  have hdiff : (r.base - s.base) = (a - s.base) - (a - r.base) := by ring
  have hr' := (a - r.base).isLt
  have hs' := (a - s.base).isLt
  rw [hsum, BitVec.toNat_sub] at hrs
  rw [hdiff, BitVec.toNat_sub] at hsr
  obtain hlt | hge := Nat.lt_or_ge (a - r.base).toNat (a - s.base).toNat
  · rw [Nat.mod_eq_sub_mod (by omega), Nat.mod_eq_of_lt (by omega)] at hsr
    omega
  · rw [Nat.mod_eq_sub_mod (by omega), Nat.mod_eq_of_lt (by omega)] at hrs
    omega

/-- An offset within a range leads to an address of the range. -/
theorem contains_add {r : Region n} {i : Nat} (hi : i < r.size) :
    r.Contains (r.base + BitVec.ofNat n i) := by
  have hsub : r.base + BitVec.ofNat n i - r.base = BitVec.ofNat n i := by ring
  have hle : i % 2 ^ n ≤ i := Nat.mod_le _ _
  simp only [Contains, hsub, BitVec.toNat_ofNat]
  omega

/-- Every address of a range is its base plus an offset. -/
theorem eq_add_of_contains {r : Region n} {a : BitVec n} :
    a = r.base + BitVec.ofNat n (a - r.base).toNat := by
  rw [BitVec.ofNat_toNat, BitVec.setWidth_eq]
  ring

/-- One of the ranges is empty, or neither reaches the base of the other. -/
def Clear (r s : Region n) : Prop :=
  r.size = 0 ∨ s.size = 0 ∨ r.size ≤ (s.base - r.base).toNat ∧ s.size ≤ (r.base - s.base).toNat

instance (r s : Region n) : Decidable (r.Clear s) := inferInstanceAs (Decidable (_ ∨ _ ∨ _))

theorem disjoint_iff_clear {r s : Region n} : r.Disjoint s ↔ r.Clear s := by
  constructor
  · intro h
    by_cases hr : r.size = 0
    · exact Or.inl hr
    · by_cases hs : s.size = 0
      · exact Or.inr (Or.inl hs)
      · refine Or.inr (Or.inr ⟨Nat.le_of_not_lt fun hlt => ?_, Nat.le_of_not_lt fun hlt => ?_⟩)
        · apply h s.base hlt
          simp only [Contains, sub_self]
          exact Nat.pos_of_ne_zero hs
        · refine h r.base ?_ hlt
          simp only [Contains, sub_self]
          exact Nat.pos_of_ne_zero hr
  · rintro (hr | hs | ⟨hrs, hsr⟩)
    · intro a ha
      simp [Contains, hr] at ha
    · intro a _ ha
      simp [Contains, hs] at ha
    · exact disjoint_of_bases hrs hsr

/-- A range lies within another when it is empty, the other one is all there is,
or it ends, counted from where the other one starts, within it. -/
theorem subset_iff {r s : Region n} :
    (∀ a, s.Contains a → r.Contains a) ↔
      s.size = 0 ∨ 2 ^ n ≤ r.size ∨ (s.base - r.base).toNat + s.size ≤ r.size := by
  constructor
  · intro h
    by_cases hs : s.size = 0
    · exact Or.inl hs
    by_cases hr : 2 ^ n ≤ r.size
    · exact Or.inr (Or.inl hr)
    refine Or.inr (Or.inr ?_)
    have hbase : (s.base - r.base).toNat < r.size := by
      apply h s.base
      simp only [Contains, sub_self]
      exact Nat.pos_of_ne_zero hs
    by_contra hlong
    -- the first address behind `r` is still one of `s`
    have hbehind := h (s.base + BitVec.ofNat n (r.size - (s.base - r.base).toNat)) (contains_add (by omega))
    have hoff : s.base + BitVec.ofNat n (r.size - (s.base - r.base).toNat) - r.base =
        (s.base - r.base) + BitVec.ofNat n (r.size - (s.base - r.base).toNat) := by ring
    simp only [Contains, hoff, BitVec.toNat_add, BitVec.toNat_ofNat] at hbehind
    rw [Nat.add_mod_mod, Nat.add_sub_cancel' hbase.le, Nat.mod_eq_of_lt (by omega)] at hbehind
    exact Nat.lt_irrefl _ hbehind
  · rintro (hs | hr | hfit) a ha
    · simp [Contains, hs] at ha
    · exact (a - r.base).isLt.trans_le hr
    · have hsum : a - r.base = (s.base - r.base) + (a - s.base) := by ring
      simp only [Contains] at ha ⊢
      rw [hsum, BitVec.toNat_add]
      exact Nat.lt_of_le_of_lt (Nat.mod_le _ _) (by omega)

/-- Two ranges that are not empty have the same addresses when they are equal, or
when each of them is all there is. -/
theorem same_iff {r s : Region n} (hr : r.size ≠ 0) (hs : s.size ≠ 0) (hrn : r.size ≤ 2 ^ n) (hsn : s.size ≤ 2 ^ n) :
    (∀ a, r.Contains a ↔ s.Contains a) ↔ r.size = s.size ∧ (r.base = s.base ∨ r.size = 2 ^ n) := by
  have hzero : ∀ {a b : BitVec n}, (a - b).toNat = 0 → a = b := by
    intro a b h
    exact sub_eq_zero.mp (BitVec.eq_of_toNat_eq (by simpa using h))
  constructor
  · intro h
    have hrs := subset_iff.mp fun a => (h a).mpr
    have hsr := subset_iff.mp fun a => (h a).mp
    obtain hall | hfit := hrs.resolve_left hs
    · obtain hall' | hfit' := hsr.resolve_left hr <;> omega
    · obtain hall' | hfit' := hsr.resolve_left hr
      · omega
      · exact ⟨by omega, .inl (hzero (by omega))⟩
  · rintro ⟨hsize, hbase | hall⟩ a
    · rw [Contains, Contains, hsize, hbase]
    · have hr' := (a - r.base).isLt
      have hs' := (a - s.base).isLt
      unfold Contains
      omega

end Region

namespace Memory

variable {n : Nat}

/-- The byte a program reads at an address. -/
def byte (m : Memory n) (a : BitVec n) : Option Byte :=
  match m a with
  | some c => if c.prot.readable then some c.val else none
  | none => none

/-- Whether a program may write an address. -/
def Writable (m : Memory n) (a : BitVec n) : Prop := ∃ c, m a = some c ∧ c.prot.w = true

instance (m : Memory n) (a : BitVec n) : Decidable (m.Writable a) :=
  match h : m a with
  | some c => decidable_of_iff (c.prot.w = true) (by simp [Writable, h])
  | none => isFalse (by simp [Writable, h])

/-- `k` consecutive bytes. -/
def load (m : Memory n) (a : BitVec n) : Nat → Option (List Byte)
  | 0 => some []
  | k + 1 =>
    match m.byte a, load m (a + 1#n) k with
    | some b, some bs => some (b :: bs)
    | _, _ => none

/-- Every address of a range may be written. -/
def WritableRegion (m : Memory n) (r : Region n) : Prop := ∀ i < r.size, m.Writable (r.base + BitVec.ofNat n i)

instance (m : Memory n) (r : Region n) : Decidable (m.WritableRegion r) :=
  inferInstanceAs (Decidable (∀ i < r.size, _))

/-- The memory after the bytes `bs` were put at `a`, without a check. -/
def put (m : Memory n) (a : BitVec n) (bs : List Byte) : Memory n := fun x =>
  match m x, bs[(x - a).toNat]? with
  | some c, some b => some { c with val := b }
  | c, _ => c

/-- Write the bytes `bs` at `a`; every byte must be writable. -/
def store (m : Memory n) (a : BitVec n) (bs : List Byte) : Option (Memory n) :=
  if m.WritableRegion ⟨a, bs.length⟩ then some (m.put a bs) else none

/-- Zeroed fresh bytes with one protection over a range, whatever was there. -/
def mmap (m : Memory n) (r : Region n) (prot : Prot) : Memory n :=
  fun a => if r.Contains a then some ⟨0, prot⟩ else m a

/-- The bytes of a range under a new protection. -/
def mprotect (m : Memory n) (r : Region n) (prot : Prot) : Memory n := fun a =>
  if r.Contains a then (m a).map fun c => { c with prot := prot } else m a

def munmap (m : Memory n) (r : Region n) : Memory n := fun a => if r.Contains a then none else m a

/-- Unmapping two ranges does the same to every memory that has the first one
mapped exactly when they have the same addresses. -/
theorem munmap_eq_iff {r s : Region n} :
    (∀ m : Memory n, (∀ a, r.Contains a → (m a).isSome = true) → m.munmap s = m.munmap r) ↔
      ∀ a, s.Contains a ↔ r.Contains a := by
  constructor
  · intro h a
    have hsame := congrFun (h (fun _ => some ⟨0, ⟨true, true, true⟩⟩) fun _ _ => rfl) a
    by_cases hs : s.Contains a <;> by_cases hr : r.Contains a <;> simp [munmap, hs, hr] at hsame ⊢
  · intro h m _
    funext a
    simp only [munmap, h a]

/-- Little-endian read of a `w`-bit word. -/
def loadWord (w : Nat) (m : Memory n) (a : BitVec n) : Outcome (BitVec w) :=
  match m.load a (w / 8) with
  | some bs => .ok (BitVec.ofNat w (leNat bs))
  | none => .fault

/-- A word is read or the access is undefined. -/
theorem loadWord_ok_or_fault (w : Nat) (m : Memory n) (a : BitVec n) :
    (∃ v, m.loadWord w a = .ok v) ∨ m.loadWord w a = .fault := by
  unfold loadWord
  cases m.load a (w / 8) with
  | some bs => exact Or.inl ⟨_, rfl⟩
  | none => exact Or.inr rfl

/-- Little-endian write of a `w`-bit word. -/
def storeWord {w : Nat} (m : Memory n) (a : BitVec n) (v : BitVec w) : Outcome (Memory n) :=
  .ofOption (m.store a (leBytes (w / 8) v.toNat))

/-- The bytes `bs` can be read at `a`. -/
def Holds (m : Memory n) (a : BitVec n) (bs : List Byte) : Prop := m.load a bs.length = some bs

instance (m : Memory n) (a : BitVec n) (bs : List Byte) : Decidable (m.Holds a bs) :=
  inferInstanceAs (Decidable (_ = _))

theorem load_cons {m : Memory n} {a : BitVec n} {k : Nat} {b : Byte} {bs : List Byte} :
    m.load a (k + 1) = some (b :: bs) ↔ m.byte a = some b ∧ m.load (a + 1#n) k = some bs := by
  simp only [load]
  cases m.byte a <;> cases m.load (a + 1#n) k <;> simp

theorem load_length {m : Memory n} {a : BitVec n} {k : Nat} {bs : List Byte}
    (h : m.load a k = some bs) : bs.length = k := by
  induction k generalizing a bs with
  | zero =>
    simp only [load, Option.some.injEq] at h
    subst h
    rfl
  | succ k ih =>
    cases bs with
    | nil =>
      simp only [load] at h
      split at h <;> simp at h
    | cons b bs =>
      simp [ih (load_cons.mp h).2]

/-- Held bytes split at any point into two held pieces. -/
theorem holds_append {m : Memory n} {a : BitVec n} {xs ys : List Byte} :
    m.Holds a (xs ++ ys) ↔ m.Holds a xs ∧ m.Holds (a + BitVec.ofNat n xs.length) ys := by
  induction xs generalizing a with
  | nil => simp [Holds, load]
  | cons x xs ih =>
    have haddr : a + 1#n + BitVec.ofNat n xs.length = a + BitVec.ofNat n (xs.length + 1) := by
      rw [BitVec.ofNat_add, BitVec.add_assoc, BitVec.add_comm (1#n)]
    unfold Holds at ih ⊢
    rw [List.cons_append, List.length_cons, load_cons, List.length_cons, load_cons, ih, haddr, and_assoc]

/-- A slice of held bytes is what a read of its range returns. -/
theorem Holds.load_slice {m : Memory n} {a : BitVec n} {bs : List Byte} (h : m.Holds a bs)
    {i k : Nat} (hik : i + k ≤ bs.length) :
    m.load (a + BitVec.ofNat n i) k = some ((bs.drop i).take k) := by
  rw [← List.take_append_drop i bs, holds_append] at h
  have htail := h.2
  rw [← List.take_append_drop k (bs.drop i), holds_append] at htail
  have hload := htail.1
  rw [List.length_take_of_le (by omega)] at hload
  have hlen : ((bs.drop i).take k).length = k := by
    rw [List.length_take, List.length_drop]
    omega
  unfold Holds at hload
  rwa [hlen] at hload

/-- Reading element `i` of an encoded array. -/
theorem Holds.loadWord_array {m : Memory n} {a : BitVec n} {w : Nat} (hw : w % 8 = 0)
    {ws : List (BitVec w)} (h : m.Holds a (encodeArray (w / 8) ws)) {i : Nat} (hi : i < ws.length) :
    loadWord w m (a + BitVec.ofNat n (w / 8 * i)) = .ok ws[i] := by
  have hslice := h.load_slice (i := w / 8 * i) (k := w / 8) (by
    rw [encodeArray_length]
    calc w / 8 * i + w / 8 = w / 8 * (i + 1) := by ring
      _ ≤ w / 8 * ws.length := Nat.mul_le_mul_left _ hi)
  rw [encodeArray_slice _ _ _ hi] at hslice
  unfold loadWord
  rw [hslice]
  have hpow : 256 ^ (w / 8) = 2 ^ w := by
    rw [show 256 = 2 ^ 8 from rfl, ← pow_mul, Nat.mul_div_cancel' (Nat.dvd_of_mod_eq_zero hw)]
  simp only [leNat_leBytes, hpow, Outcome.ok.injEq]
  apply BitVec.eq_of_toNat_eq
  rw [BitVec.toNat_ofNat, Nat.mod_mod, Nat.mod_eq_of_lt ws[i].isLt]

end Memory

end cmodel
