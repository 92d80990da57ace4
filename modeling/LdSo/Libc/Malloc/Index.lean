import Mathlib.Data.BitVec
import Mathlib.Tactic.Ring

namespace ldso.malloc

def SIZE_T_BITSIZE : Nat := 64

def NTREEBINS : Nat := 32

def TREEBIN_SHIFT : Nat := 8

def MIN_LARGE_SIZE : BitVec 64 := 1#64 <<< TREEBIN_SHIFT

/-- The size is cut off to 32 bits after the shift. -/
def compute_tree_index (S : BitVec 64) : Nat :=
  let X := (S >>> TREEBIN_SHIFT).setWidth 32
  if X = 0#32 then 0
  else if 0xFFFF#32 < X then NTREEBINS - 1
  else
    let K := 31 - X.clz.toNat
    (K <<< 1) + ((S >>> (K + (TREEBIN_SHIFT - 1))) &&& 1#64).toNat

def leftshift_for_tree_index (i : Nat) : Nat :=
  if i = NTREEBINS - 1 then 0 else (SIZE_T_BITSIZE - 1) - ((i >>> 1) + TREEBIN_SHIFT - 2)

def minsize_for_tree_index (i : Nat) : BitVec 64 :=
  (1#64 <<< ((i >>> 1) + TREEBIN_SHIFT)) ||| (BitVec.ofNat 64 (i &&& 1) <<< ((i >>> 1) + TREEBIN_SHIFT - 1))

def idx2bit (i : Nat) : BitVec 32 := 1#32 <<< i

def least_bit (x : BitVec 32) : BitVec 32 := x &&& -x

def left_bits (x : BitVec 32) : BitVec 32 := (x <<< 1) ||| -(x <<< 1)

def compute_bit2idx (X : BitVec 32) : Nat := X.ctz.toNat

section TreeIndex

variable {S S' : BitVec 64} {i j : Nat}

theorem minsize_toNat (hi : i < NTREEBINS) : (minsize_for_tree_index i).toNat = (2 + i % 2) * 2 ^ (i / 2 + 7) := by
  revert i
  decide

/-- The bins are next to one another. -/
theorem minsize_succ (hi : i + 1 < NTREEBINS) :
    (minsize_for_tree_index (i + 1)).toNat = (minsize_for_tree_index i).toNat + 2 ^ (i / 2 + 7) := by
  have hi' : i < NTREEBINS - 1 := Nat.lt_sub_of_add_lt hi
  clear hi
  revert i
  decide

theorem tree_index_shift : ((S >>> TREEBIN_SHIFT).setWidth 32).toNat = S.toNat % 2 ^ 40 / 2 ^ 8 := by
  simp only [BitVec.toNat_setWidth, BitVec.toNat_ushiftRight, TREEBIN_SHIFT, Nat.shiftRight_eq_div_pow]
  omega

/-- The index only depends on the low 40 bits of the size. -/
theorem compute_tree_index_low (h : S.toNat % 2 ^ 40 < 2 ^ 8) : compute_tree_index S = 0 := by
  refine if_pos (BitVec.eq_of_toNat_eq ?_)
  rw [tree_index_shift, BitVec.toNat_ofNat]
  omega

theorem compute_tree_index_high (h : 2 ^ 24 ≤ S.toNat % 2 ^ 40) : compute_tree_index S = NTREEBINS - 1 := by
  have hX := tree_index_shift (S := S)
  unfold compute_tree_index
  dsimp only
  rw [if_neg, if_pos]
  · rw [BitVec.lt_def, hX, BitVec.toNat_ofNat]
    omega
  · intro hzero
    rw [hzero, BitVec.toNat_ofNat] at hX
    omega

/-- Between them it is made of the place of the first bit and of the bit behind it. -/
theorem compute_tree_index_middle (hlo : 2 ^ 8 ≤ S.toNat % 2 ^ 40) (hhi : S.toNat % 2 ^ 40 < 2 ^ 24) :
    ∃ K b, K < 16 ∧ b < 2 ∧ compute_tree_index S = 2 * K + b ∧ S.toNat % 2 ^ 40 / 2 ^ (K + 7) = 2 + b := by
  have hX := tree_index_shift (S := S)
  unfold compute_tree_index
  dsimp only
  generalize (S >>> TREEBIN_SHIFT).setWidth 32 = X at hX ⊢
  have hX0 : X ≠ 0#32 := by
    rintro rfl
    rw [BitVec.toNat_ofNat] at hX
    omega
  have hXlt : ¬ 0xFFFF#32 < X := by
    rw [BitVec.lt_def, BitVec.toNat_ofNat]
    omega
  obtain ⟨K, hK⟩ : ∃ K, K = 31 - X.clz.toNat := ⟨_, rfl⟩
  have hle : 2 ^ K ≤ X.toNat := hK ▸ BitVec.two_pow_sub_clz_le_toNat_of_ne_zero (by decide) hX0
  have hlt : X.toNat < 2 ^ (K + 1) := by
    have hclz : X.clz.toNat < 32 := BitVec.clz_lt_iff_ne_zero.mpr hX0
    have hexp : K + 1 = 32 - X.clz.toNat := by omega
    rw [hexp]
    exact BitVec.toNat_lt_two_pow_sub_clz
  have hK16 : K < 16 := (Nat.pow_lt_pow_iff_right (by decide)).mp (hle.trans_lt (show X.toNat < 2 ^ 16 by omega))
  rw [hX, Nat.le_div_iff_mul_le (by decide), ← pow_add] at hle
  rw [hX, Nat.div_lt_iff_lt_mul (by decide), ← pow_add] at hlt
  -- the two bits from `K + 7` on are `10` or `11`
  have hpow : 2 ^ (K + 8) = 2 * 2 ^ (K + 7) := by ring
  have hpow' : 2 ^ (K + 1 + 8) = 4 * 2 ^ (K + 7) := by ring
  have htwo : 2 ≤ S.toNat % 2 ^ 40 / 2 ^ (K + 7) := (Nat.le_div_iff_mul_le (Nat.two_pow_pos _)).mpr (by omega)
  have hfour : S.toNat % 2 ^ 40 / 2 ^ (K + 7) < 4 := (Nat.div_lt_iff_lt_mul (Nat.two_pow_pos _)).mpr (by omega)
  have hbit : ((S >>> (K + (TREEBIN_SHIFT - 1))) &&& 1#64).toNat = S.toNat % 2 ^ 40 / 2 ^ (K + 7) % 2 := by
    have hmod : S.toNat % 2 ^ 40 / 2 ^ (K + 7) % 2 = S.toNat / 2 ^ (K + 7) % 2 := by
      have hsplit : 2 ^ 40 = 2 ^ (K + 7) * 2 ^ (33 - K) := by
        rw [← pow_add]
        congr 1
        omega
      rw [hsplit, Nat.mod_mul_right_div_self, Nat.mod_mod_of_dvd]
      exact dvd_pow_self 2 (by omega)
    rw [hmod, BitVec.toNat_and, BitVec.toNat_ushiftRight, Nat.shiftRight_eq_div_pow]
    exact Nat.and_one_is_mod _
  refine ⟨K, S.toNat % 2 ^ 40 / 2 ^ (K + 7) - 2, hK16, by omega, ?_, by omega⟩
  rw [if_neg hX0, if_neg hXlt, ← hK, hbit, Nat.shiftLeft_eq]
  omega

/-- From 256 bytes on the bin is the one that the low 40 bits belong to. -/
theorem compute_tree_index_bounds (h : 2 ^ 8 ≤ S.toNat % 2 ^ 40) : compute_tree_index S < NTREEBINS ∧
    (minsize_for_tree_index (compute_tree_index S)).toNat ≤ S.toNat % 2 ^ 40 ∧
    (compute_tree_index S + 1 < NTREEBINS →
      S.toNat % 2 ^ 40 < (minsize_for_tree_index (compute_tree_index S + 1)).toNat) := by
  obtain hmiddle | hhigh := Nat.lt_or_ge (S.toNat % 2 ^ 40) (2 ^ 24)
  · obtain ⟨K, b, hK, hb, hindex, hdiv⟩ := compute_tree_index_middle h hmiddle
    have hlt : 2 * K + b < NTREEBINS := by
      unfold NTREEBINS
      omega
    have hhalf : (2 * K + b) / 2 = K := by omega
    have hodd : (2 * K + b) % 2 = b := by omega
    rw [hindex]
    refine ⟨hlt, ?_, fun hnext => ?_⟩
    · rw [minsize_toNat hlt, hhalf, hodd, ← hdiv]
      exact Nat.div_mul_le_self _ _
    · rw [minsize_succ hnext, minsize_toNat hlt, hhalf, hodd, ← hdiv]
      exact Nat.lt_div_mul_add (Nat.two_pow_pos _)
  · have hmin : (minsize_for_tree_index (NTREEBINS - 1)).toNat = 3 * 2 ^ 22 := by decide
    rw [compute_tree_index_high hhigh, hmin]
    exact ⟨by decide, by omega, fun hlt => absurd hlt (by decide)⟩

/-- A larger index means larger sizes. -/
theorem minsize_mono (hij : i ≤ j) (hj : j < NTREEBINS) :
    (minsize_for_tree_index i).toNat ≤ (minsize_for_tree_index j).toNat := by
  induction j, hij using Nat.le_induction with
  | base => exact Nat.le_refl _
  | succ j hle ih =>
    rw [minsize_succ hj]
    exact (ih (Nat.lt_of_succ_lt hj)).trans (Nat.le_add_right _ _)

/-- A size is in the range of its bin, as the debugging code asserts, exactly up to
2^40 bytes, and beyond that where the low 40 bits belong to the last bin. -/
theorem compute_tree_index_in_bin_iff (S : BitVec 64) (hS : MIN_LARGE_SIZE ≤ S) :
    (minsize_for_tree_index (compute_tree_index S) ≤ S ∧
      (compute_tree_index S = NTREEBINS - 1 ∨ S < minsize_for_tree_index (compute_tree_index S + 1))) ↔
    S.toNat < 2 ^ 40 ∨ (minsize_for_tree_index (NTREEBINS - 1)).toNat ≤ S.toNat % 2 ^ 40 := by
  have hlast : (minsize_for_tree_index (NTREEBINS - 1)).toNat = 3 * 2 ^ 22 := by decide
  rw [BitVec.le_def] at hS ⊢
  rw [BitVec.lt_def]
  obtain hlow | hrest := Nat.lt_or_ge (S.toNat % 2 ^ 40) (2 ^ 8)
  · have hfirst : (minsize_for_tree_index (0 + 1)).toNat = 384 := by decide
    have hlarge : MIN_LARGE_SIZE.toNat = 256 := by decide
    rw [compute_tree_index_low hlow, hfirst, hlast]
    constructor
    · rintro ⟨-, hzero | hlt⟩
      · cases hzero
      · omega
    · rintro (hlt | hle) <;> omega
  · obtain ⟨hindex, hmin, hnext⟩ := compute_tree_index_bounds hrest
    have hmod : S.toNat % 2 ^ 40 ≤ S.toNat := Nat.mod_le _ _
    constructor
    · rintro ⟨-, hlast' | hlt⟩
      · right
        rwa [hlast'] at hmin
      · by_cases hsucc : compute_tree_index S + 1 < NTREEBINS
        · have hle := minsize_mono (i := compute_tree_index S + 1) (j := NTREEBINS - 1) (by omega) (by decide)
          rw [hlast] at hle
          exact .inl (by omega)
        · have heq : compute_tree_index S = NTREEBINS - 1 := by omega
          rw [heq] at hmin
          exact .inr hmin
    · intro hcond
      refine ⟨hmin.trans hmod, ?_⟩
      by_cases hsucc : compute_tree_index S + 1 < NTREEBINS
      · right
        have hlt := hnext hsucc
        obtain hsmall | hhigh := hcond
        · rwa [Nat.mod_eq_of_lt hsmall] at hlt
        · have hle := minsize_mono (i := compute_tree_index S + 1) (j := NTREEBINS - 1) (by omega) (by decide)
          omega
      · exact .inl (by omega)

theorem compute_tree_index_in_bin_page : minsize_for_tree_index (compute_tree_index 4096#64) ≤ 4096#64 ∧
    (compute_tree_index 4096#64 = NTREEBINS - 1 ∨ 4096#64 < minsize_for_tree_index (compute_tree_index 4096#64 + 1)) :=
  (compute_tree_index_in_bin_iff 4096#64 (by decide)).mpr (.inl (by decide))

theorem compute_tree_index_lt : compute_tree_index S < NTREEBINS := by
  obtain hlow | hrest := Nat.lt_or_ge (S.toNat % 2 ^ 40) (2 ^ 8)
  · rw [compute_tree_index_low hlow]
    decide
  · exact (compute_tree_index_bounds hrest).1

/-- The bits of a size that the tree of a bin tells apart, and the least size that
has the others as the sizes of the bin do. -/
def tree_bits (i : Nat) : Nat := SIZE_T_BITSIZE - leftshift_for_tree_index i

def tree_base (i : Nat) : Nat := if i = NTREEBINS - 1 then 0 else (minsize_for_tree_index i).toNat

/-- The sizes that a tree can hold in order. -/
def TreeSize (n : Nat) : Prop := MIN_LARGE_SIZE.toNat ≤ n ∧ n < 2 ^ 40

theorem leftshift_eq (hi : i < NTREEBINS) : leftshift_for_tree_index i = 64 - tree_bits i := by
  revert i
  decide

theorem tree_bits_le : tree_bits i ≤ 64 := Nat.sub_le _ _

theorem tree_base_dvd (hi : i < NTREEBINS) : 2 ^ tree_bits i ∣ tree_base i := by
  revert i
  decide

theorem minsize_lt (hi : i + 1 < NTREEBINS) :
    (minsize_for_tree_index (i + 1)).toNat = tree_base i + 2 ^ tree_bits i := by
  have hi' : i < NTREEBINS - 1 := Nat.lt_sub_of_add_lt hi
  clear hi
  revert i
  decide

namespace TreeSize

theorem mod_eq (h : TreeSize S.toNat) : S.toNat % 2 ^ 40 = S.toNat := Nat.mod_eq_of_lt h.2

theorem bounds (h : TreeSize S.toNat) : (minsize_for_tree_index (compute_tree_index S)).toNat ≤ S.toNat ∧
    (compute_tree_index S + 1 < NTREEBINS →
      S.toNat < (minsize_for_tree_index (compute_tree_index S + 1)).toNat) := by
  have hbounds := compute_tree_index_bounds (S := S) (by rw [h.mod_eq]; exact h.1)
  rw [h.mod_eq] at hbounds
  exact hbounds.2

/-- The size is in the range of its bin. -/
theorem within (h : TreeSize S.toNat) : tree_base (compute_tree_index S) ≤ S.toNat ∧
    S.toNat < tree_base (compute_tree_index S) + 2 ^ tree_bits (compute_tree_index S) := by
  by_cases hlast : compute_tree_index S = NTREEBINS - 1
  · rw [hlast]
    exact ⟨Nat.zero_le _, S.isLt⟩
  · have hnext : compute_tree_index S + 1 < NTREEBINS := by
      have hlt := compute_tree_index_lt (S := S)
      omega
    rw [← minsize_lt hnext]
    refine ⟨?_, h.bounds.2 hnext⟩
    rw [tree_base, if_neg hlast]
    exact h.bounds.1

theorem lt_of_index_lt (h : TreeSize S.toNat) (h' : TreeSize S'.toNat)
    (hlt : compute_tree_index S < compute_tree_index S') : S.toNat < S'.toNat := by
  have hlast := compute_tree_index_lt (S := S')
  exact (h.bounds.2 (by omega)).trans_le ((minsize_mono hlt hlast).trans h'.bounds.1)

end TreeSize

end TreeIndex

section Binmap

variable {x : BitVec 32} {i j : Nat}

theorem getLsbD_idx2bit (hj : j < 32) : (idx2bit i).getLsbD j = decide (i = j) := by
  rw [idx2bit, BitVec.getLsbD_shiftLeft, BitVec.getLsbD_one]
  by_cases h : i = j
  · subst h
    simp [hj]
  · by_cases hlt : j < i
    · simp [hlt, h]
    · have hne : j - i ≠ 0 := by omega
      simp [hne, h]

/-- The test of a bit. -/
theorem and_idx2bit_ne_zero (hi : i < 32) : x &&& idx2bit i ≠ 0#32 ↔ x.getLsbD i = true := by
  constructor
  · intro h
    by_contra hbit
    apply h
    apply BitVec.eq_of_getLsbD_eq
    intro j hj
    rw [BitVec.getLsbD_and, getLsbD_idx2bit hj, BitVec.getLsbD_zero]
    by_cases hij : i = j
    · subst hij
      simpa using hbit
    · simp [hij]
  · intro hbit hzero
    have hand := congrArg (BitVec.getLsbD · i) hzero
    simp [BitVec.getLsbD_and, getLsbD_idx2bit hi, hbit] at hand

theorem getLsbD_left_bits_idx2bit (hi : i < 32) (hj : j < 32) : (left_bits (idx2bit i)).getLsbD j = decide (i < j) := by
  have hall : ∀ i < 32, ∀ j < 32, (left_bits (idx2bit i)).getLsbD j = decide (i < j) := by decide +kernel
  exact hall i hi j hj

/-- The index of the least bit is that of the first bit set. -/
theorem compute_bit2idx_least_bit (hx : x ≠ 0#32) : compute_bit2idx (least_bit x) < 32 ∧
    x.getLsbD (compute_bit2idx (least_bit x)) = true ∧
    ∀ j < compute_bit2idx (least_bit x), x.getLsbD j = false := by
  have hbit : ∀ k, (least_bit x).getLsbD k = (x.getLsbD k && !decide (∃ j < k, x.getLsbD j = true)) := by
    intro k
    rw [least_bit, BitVec.getLsbD_and, BitVec.getLsbD_neg]
    by_cases hk : k < 32
    · cases hxk : x.getLsbD k <;> simp [hk]
    · rw [BitVec.getLsbD_of_ge _ _ (Nat.le_of_not_lt hk)]
      rfl
  have hctz := BitVec.getLsbD_true_ctz_of_ne_zero hx
  have hbelow : ∀ j < x.ctz.toNat, x.getLsbD j = false := fun j hj => BitVec.getLsbD_false_of_lt_ctz hj
  have hleast : (least_bit x).getLsbD x.ctz.toNat = true := by
    rw [hbit, hctz]
    simpa using hbelow
  have hne : least_bit x ≠ 0#32 := by
    intro hzero
    rw [hzero, BitVec.getLsbD_zero] at hleast
    cases hleast
  have htrue := BitVec.getLsbD_true_ctz_of_ne_zero hne
  rw [hbit, Bool.and_eq_true] at htrue
  refine ⟨BitVec.ctz_lt_iff_ne_zero.mpr hne, htrue.1, fun j hj => ?_⟩
  by_contra hset
  have hnone : ¬ ∃ j < (least_bit x).ctz.toNat, x.getLsbD j = true := by simpa using htrue.2
  exact hnone ⟨j, hj, by simpa using hset⟩

end Binmap

end ldso.malloc
