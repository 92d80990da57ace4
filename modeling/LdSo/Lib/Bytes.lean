import LdSo.Lib.Outcome
import Mathlib.Data.List.Basic
import Mathlib.Data.List.TakeWhile
import Mathlib.Tactic.Common
import Mathlib.Tactic.Ring

namespace cmodel

abbrev Byte := BitVec 8

/-- Whether a byte is in a list, with its proofs in one place for all that asks. -/
instance decidableMem (c : Byte) (cs : List Byte) : Decidable (c ∈ cs) := inferInstance

/-- A small number keeps its value in a signed word. -/
theorem toInt_ofNat_of_lt {w n : Nat} (h : 2 * n < 2 ^ w) : (BitVec.ofNat w n).toInt = n := by
  have hmod : (BitVec.ofNat w n).toNat = n := by
    rw [BitVec.toNat_ofNat]
    exact Nat.mod_eq_of_lt (by omega)
  rw [BitVec.toInt_eq_toNat_of_lt (by rwa [hmod]), hmod]

/-- The number a little-endian byte sequence stands for. -/
def leNat : List Byte → Nat
  | [] => 0
  | b :: bs => b.toNat + 256 * leNat bs

/-- The low `8 * k` bits of `v` as `k` little-endian bytes. -/
def leBytes : Nat → Nat → List Byte
  | 0, _ => []
  | k + 1, v => BitVec.ofNat 8 v :: leBytes k (v / 256)

@[simp] theorem leBytes_length (k v : Nat) : (leBytes k v).length = k := by
  induction k generalizing v with
  | zero => rfl
  | succ k ih => simp [leBytes, ih]

@[simp] theorem leNat_leBytes (k v : Nat) : leNat (leBytes k v) = v % 256 ^ k := by
  induction k generalizing v with
  | zero => simp [leBytes, leNat, Nat.mod_one]
  | succ k ih =>
    simp only [leBytes, leNat, BitVec.toNat_ofNat, ih]
    rw [show 256 ^ (k + 1) = 256 * 256 ^ k from pow_succ' 256 k, Nat.mod_mul]

theorem leNat_lt (bs : List Byte) : leNat bs < 256 ^ bs.length := by
  induction bs with
  | nil => simp [leNat]
  | cons b bs ih =>
    have hb : b.toNat < 256 := b.isLt
    simp only [leNat, List.length_cons, pow_succ]
    omega

theorem leNat_append (xs ys : List Byte) : leNat (xs ++ ys) = leNat xs + 256 ^ xs.length * leNat ys := by
  induction xs with
  | nil => simp [leNat]
  | cons x xs ih =>
    simp only [List.cons_append, leNat, ih, List.length_cons]
    ring

/-- A byte sequence is determined by its length and the number it encodes. -/
theorem leBytes_leNat (bs : List Byte) : leBytes bs.length (leNat bs) = bs := by
  induction bs with
  | nil => rfl
  | cons b bs ih =>
    have hb : b.toNat < 256 := b.isLt
    have hdiv : leNat (b :: bs) / 256 = leNat bs := by
      simp only [leNat]
      omega
    have hmod : BitVec.ofNat 8 (leNat (b :: bs)) = b := by
      apply BitVec.eq_of_toNat_eq
      simp only [leNat, BitVec.toNat_ofNat]
      omega
    simp only [List.length_cons, leBytes, hdiv, hmod, ih]

/-- The `n`-bit little-endian word at byte offset `off` of a buffer. Bytes
beyond the buffer count as zero, so callers check the bounds first. -/
def field (n : Nat) (buf : List Byte) (off : Nat) : BitVec n :=
  BitVec.ofNat n (leNat ((buf.drop off).take (n / 8)))

/-- The complete `k`-byte records a buffer consists of, in order. -/
def records (k : Nat) (buf : List Byte) : List (List Byte) :=
  (List.range (buf.length / k)).map fun i => (buf.drop (k * i)).take k

@[simp] theorem records_length (k : Nat) (buf : List Byte) :
    (records k buf).length = buf.length / k := by
  simp [records]

/-- The records of a piece of a buffer. -/
theorem records_slice {k n off : Nat} {buf : List Byte} (hk : 0 < k) (hfit : off + n * k ≤ buf.length) :
    records k ((buf.drop off).take (n * k)) = (List.range n).map fun i => (buf.drop (off + k * i)).take k := by
  have hlength : ((buf.drop off).take (n * k)).length = n * k := by
    rw [List.length_take, List.length_drop]
    omega
  unfold records
  rw [hlength, Nat.mul_div_cancel _ hk]
  apply List.map_congr_left
  intro i hi
  rw [List.mem_range] at hi
  have hroom : k ≤ n * k - k * i := by
    have hle : k * (i + 1) ≤ k * n := Nat.mul_le_mul_left k hi
    rw [Nat.mul_comm n k]
    rw [Nat.mul_add, Nat.mul_one] at hle
    omega
  rw [List.drop_take, List.take_take, List.drop_drop, min_eq_left hroom]

/-- Records that were written one behind the other are read back. -/
theorem records_flatMap {α : Type} {k : Nat} (hk : 0 < k) (encode : α → List Byte) (xs : List α)
    (hlen : ∀ x, (encode x).length = k) : records k (xs.flatMap encode) = xs.map encode := by
  have hsum : (xs.flatMap encode).length = k * xs.length := by
    induction xs with
    | nil => rfl
    | cons x xs ih =>
      rw [List.flatMap_cons, List.length_append, ih, hlen, List.length_cons]
      ring
  have hslice : ∀ i (hi : i < xs.length), ((xs.flatMap encode).drop (k * i)).take k = encode xs[i] := by
    clear hsum
    induction xs with
    | nil => simp
    | cons x xs ih =>
      intro i hi
      cases i with
      | zero => simp [← hlen x]
      | succ i =>
        have hdrop : ((x :: xs).flatMap encode).drop (k * (i + 1)) = (xs.flatMap encode).drop (k * i) := by
          rw [List.flatMap_cons, show k * (i + 1) = (encode x).length + k * i by rw [hlen]; ring, List.drop_append]
          simp
        rw [hdrop, ih i (by simpa using hi)]
        rfl
  apply List.ext_getElem
  · simp [hsum, Nat.mul_div_cancel_left _ hk]
  · intro i hi hi'
    simp only [records, List.getElem_map, List.getElem_range]
    exact hslice i (by simpa using hi')

/-- A field behind the first piece of a buffer. -/
theorem field_append {n off : Nat} {xs ys : List Byte} (h : xs.length ≤ off) :
    field n (xs ++ ys) off = field n ys (off - xs.length) := by
  unfold field
  rw [List.drop_append, List.drop_eq_nil_of_le h, List.nil_append]

/-- A field within the first piece of a buffer. -/
theorem field_append_left {n off : Nat} {xs ys : List Byte} (h : off + n / 8 ≤ xs.length) :
    field n (xs ++ ys) off = field n xs off := by
  unfold field
  rw [List.drop_append_of_le_length (by omega), List.take_append_of_le_length]
  rw [List.length_drop]
  omega

theorem field_toNat (k : Nat) (buf : List Byte) (off : Nat) :
    (field (8 * k) buf off).toNat = leNat ((buf.drop off).take k) := by
  have hlt := leNat_lt ((buf.drop off).take k)
  have hle : 256 ^ ((buf.drop off).take k).length ≤ 256 ^ k :=
    Nat.pow_le_pow_right (by decide) (by rw [List.length_take]; omega)
  have hpow : 256 ^ k = 2 ^ (8 * k) := by rw [show 256 = 2 ^ 8 from rfl, ← pow_mul]
  unfold field
  rw [BitVec.toNat_ofNat, Nat.mul_div_cancel_left k (by decide), Nat.mod_eq_of_lt]
  omega

/-- A word of a buffer is made of the words it covers. -/
theorem field_split (j k : Nat) {off : Nat} {buf : List Byte} (h : off + j ≤ buf.length) :
    (field (8 * (j + k)) buf off).toNat = (field (8 * j) buf off).toNat + 256 ^ j * (field (8 * k) buf (off + j)).toNat := by
  have hlength : ((buf.drop off).take j).length = j := by
    rw [List.length_take, List.length_drop]
    omega
  rw [field_toNat, field_toNat, field_toNat, List.take_add, leNat_append, hlength, List.drop_drop]

/-- A field of a record is a field of the buffer. -/
theorem field_record {n p k off : Nat} {buf : List Byte} (h : off + n / 8 ≤ k) :
    field n ((buf.drop p).take k) off = field n buf (p + off) := by
  unfold field
  rw [List.drop_take, List.take_take, List.drop_drop, min_eq_left (by omega)]

/-- The field a buffer begins with. -/
theorem field_leBytes {n : Nat} (hn : n % 8 = 0) (v : BitVec n) (ys : List Byte) :
    field n (leBytes (n / 8) v.toNat ++ ys) 0 = v := by
  have hpow : 256 ^ (n / 8) = 2 ^ n := by
    rw [show 256 = 2 ^ 8 from rfl, ← pow_mul, Nat.mul_div_cancel' (Nat.dvd_of_mod_eq_zero hn)]
  unfold field
  rw [List.drop_zero, List.take_left' (leBytes_length _ _), leNat_leBytes, hpow]
  apply BitVec.eq_of_toNat_eq
  rw [BitVec.toNat_ofNat, Nat.mod_mod, Nat.mod_eq_of_lt v.isLt]

/-- A little-endian array of `k`-byte words. -/
def encodeArray {n : Nat} (k : Nat) (ws : List (BitVec n)) : List Byte :=
  ws.flatMap fun w => leBytes k w.toNat

@[simp] theorem encodeArray_length {n : Nat} (k : Nat) (ws : List (BitVec n)) :
    (encodeArray k ws).length = k * ws.length := by
  induction ws with
  | nil => simp [encodeArray]
  | cons w ws ih =>
    simp only [encodeArray, List.flatMap_cons, List.length_append, leBytes_length, List.length_cons] at ih ⊢
    rw [ih]
    ring

/-- Element `i` of an encoded array sits at byte offset `k * i`. -/
theorem encodeArray_slice {n : Nat} (k : Nat) (ws : List (BitVec n)) (i : Nat) (hi : i < ws.length) :
    ((encodeArray k ws).drop (k * i)).take k = leBytes k ws[i].toNat := by
  induction ws generalizing i with
  | nil => simp at hi
  | cons w ws ih =>
    cases i with
    | zero => simp [encodeArray, List.take_left']
    | succ i =>
      have hdrop : (encodeArray k (w :: ws)).drop (k * (i + 1)) = (encodeArray k ws).drop (k * i) := by
        simp only [encodeArray, List.flatMap_cons]
        rw [show k * (i + 1) = (leBytes k w.toNat).length + k * i by simp; ring, List.drop_append]
        simp
      rw [hdrop, ih i (by simpa using hi)]
      rfl

end cmodel
