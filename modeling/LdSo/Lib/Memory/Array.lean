import LdSo.Lib.Memory.Frame

namespace cmodel.Memory

variable {n w : Nat}

/-- The words `ws` are read one behind the other from `p` on. -/
def Loads (m : Memory n) (p : BitVec n) (ws : List (BitVec w)) : Prop :=
  ∀ i (hi : i < ws.length), m.loadWord w (p + BitVec.ofNat n (w / 8 * i)) = .ok ws[i]

section Loads

variable {m : Memory n} {p : BitVec n} {xs ys : List (BitVec w)}

theorem add_ofNat_add (p : BitVec n) (i j : Nat) :
    p + BitVec.ofNat n i + BitVec.ofNat n j = p + BitVec.ofNat n (i + j) := by
  rw [BitVec.ofNat_add, BitVec.add_assoc]

theorem loads_append :
    m.Loads p (xs ++ ys) ↔ m.Loads p xs ∧ m.Loads (p + BitVec.ofNat n (w / 8 * xs.length)) ys := by
  constructor
  · intro h
    constructor
    · intro i hi
      rw [h i (by rw [List.length_append]; omega), List.getElem_append_left hi]
    · intro i hi
      rw [add_ofNat_add, ← Nat.mul_add, h (xs.length + i) (by rw [List.length_append]; omega)]
      simp
  · rintro ⟨hxs, hys⟩ i hi
    by_cases hlt : i < xs.length
    · rw [hxs i hlt, List.getElem_append_left hlt]
    · have hread := hys (i - xs.length) (by rw [List.length_append] at hi; omega)
      rw [add_ofNat_add, ← Nat.mul_add, Nat.add_sub_cancel' (Nat.le_of_not_lt hlt)] at hread
      rw [hread, List.getElem_append_right (Nat.le_of_not_lt hlt)]

theorem Loads.head {x : BitVec w} (h : m.Loads p (x :: xs)) : m.loadWord w p = .ok x := by
  have hread := h 0 (by simp)
  simpa using hread

theorem Loads.tail {x : BitVec w} (h : m.Loads p (x :: xs)) : m.Loads (p + BitVec.ofNat n (w / 8)) xs := by
  rw [← List.singleton_append, loads_append] at h
  simpa using h.2

end Loads

/-- An array of words that may be read and written and does not wrap around. -/
structure Words (m : Memory n) (p : BitVec n) (ws : List (BitVec w)) : Prop where
  loads : m.Loads p ws
  writable : ∀ i < ws.length, m.WritableRegion (wordRegion w (p + BitVec.ofNat n (w / 8 * i)))
  fits : w / 8 * ws.length ≤ 2 ^ n

namespace Words

variable {m : Memory n} {p : BitVec n} {ws : List (BitVec w)}

/-- How far apart two places of an array are. -/
theorem toNat_offset_sub {i j : Nat} (hi : i < 2 ^ n) (hj : j < 2 ^ n) :
    ((p + BitVec.ofNat n i) - (p + BitVec.ofNat n j)).toNat = if j ≤ i then i - j else 2 ^ n - (j - i) := by
  have hsub : (p + BitVec.ofNat n i) - (p + BitVec.ofNat n j) = BitVec.ofNat n i - BitVec.ofNat n j := by ring
  rw [hsub, BitVec.toNat_sub, BitVec.toNat_ofNat, BitVec.toNat_ofNat, Nat.mod_eq_of_lt hi, Nat.mod_eq_of_lt hj]
  split
  · rw [Nat.mod_eq_sub_mod (by omega), Nat.mod_eq_of_lt (by omega)]
    omega
  · rw [Nat.mod_eq_of_lt (by omega)]
    omega

/-- Different words of an array do not meet. -/
theorem disjoint {len i j : Nat} (hfits : w / 8 * len ≤ 2 ^ n) (hi : i < len) (hj : j < len) (hne : i ≠ j) :
    (wordRegion w (p + BitVec.ofNat n (w / 8 * i))).Disjoint (wordRegion w (p + BitVec.ofNat n (w / 8 * j))) := by
  obtain hzero | hpos := Nat.eq_zero_or_pos (w / 8)
  · intro a ha
    simp [wordRegion, Region.Contains, hzero] at ha
  have hroom : ∀ k < len, w / 8 * k + w / 8 ≤ 2 ^ n := by
    intro k hk
    calc w / 8 * k + w / 8 = w / 8 * (k + 1) := by ring
      _ ≤ w / 8 * len := Nat.mul_le_mul_left _ hk
      _ ≤ 2 ^ n := hfits
  have hapart : w / 8 * i + w / 8 ≤ w / 8 * j ∨ w / 8 * j + w / 8 ≤ w / 8 * i := by
    rw [← Nat.mul_succ, ← Nat.mul_succ]
    obtain hlt | hlt := Nat.lt_or_gt_of_ne hne
    · exact .inl (Nat.mul_le_mul_left _ hlt)
    · exact .inr (Nat.mul_le_mul_left _ hlt)
  have hiroom := hroom i hi
  have hjroom := hroom j hj
  apply Region.disjoint_of_bases
  · rw [wordRegion, wordRegion, toNat_offset_sub (by omega) (by omega)]
    dsimp only
    split <;> omega
  · rw [wordRegion, wordRegion, toNat_offset_sub (by omega) (by omega)]
    dsimp only
    split <;> omega

/-- A word can be replaced. -/
theorem store (h : m.Words p ws) (hw : w % 8 = 0) {i : Nat} (hi : i < ws.length) (v : BitVec w) :
    ∃ m' : Memory n, m.storeWord (p + BitVec.ofNat n (w / 8 * i)) v = .ok m' ∧ m'.Words p (ws.set i v) := by
  refine ⟨_, storeWord_eq_ok v (h.writable i hi), ?_, ?_, ?_⟩
  · intro j hj
    rw [List.length_set] at hj
    by_cases hji : i = j
    · subst hji
      have hfit : w / 8 ≤ 2 ^ n := by
        calc w / 8 ≤ w / 8 * ws.length := Nat.le_mul_of_pos_right _ (by omega)
          _ ≤ 2 ^ n := h.fits
      rw [loadWord_putWord_same hw hfit (h.writable i hi), List.getElem_set_self]
    · rw [loadWord_putWord_of_disjoint (disjoint h.fits hi hj hji), h.loads j hj, List.getElem_set_ne hji]
  · intro j hj
    rw [List.length_set] at hj
    exact writableRegion_putWord.mpr (h.writable j hj)
  · rw [List.length_set]
    exact h.fits

end Words

end cmodel.Memory
