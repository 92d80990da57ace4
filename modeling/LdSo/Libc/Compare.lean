import LdSo.Libc.String
import Mathlib.Data.BitVec
import Mathlib.Data.Int.Order.Basic

open cmodel

namespace ldso.string

section Take

variable {α : Type} {n : Nat} {xs ys : List α}

/-- Two lists up to a place behind the end of the shorter one: they run in step until one
of them ends. -/
private theorem induction_of_min_lt {motive : Nat → List α → List α → Prop} (nil : ∀ n ys, motive (n + 1) [] ys)
    (shorter : ∀ n xs, motive (n + 1) xs [])
    (cons : ∀ n x y xs ys, motive n xs ys → motive (n + 1) (x :: xs) (y :: ys))
    (hn : min xs.length ys.length < n) : motive n xs ys := by
  induction n generalizing xs ys with
  | zero => omega
  | succ n ih =>
    cases xs with
    | nil => exact nil n ys
    | cons x xs =>
      cases ys with
      | nil => exact shorter n (x :: xs)
      | cons y ys =>
        have hmin : min xs.length ys.length < n := by
          simp only [List.length_cons] at hn
          omega
        exact cons n x y xs ys (ih hmin)

/-- Two lists that agree up to a place behind the end of the shorter one are equal. -/
theorem take_eq_take_of_min_lt (hn : min xs.length ys.length < n) : xs.take n = ys.take n ↔ xs = ys := by
  refine induction_of_min_lt (motive := fun n xs ys => xs.take n = ys.take n ↔ xs = ys) ?_ ?_ ?_ hn
  · intro n ys
    cases ys <;> simp
  · intro n xs
    cases xs <;> simp
  · intro n x y xs ys ih
    rw [List.take_succ_cons, List.take_succ_cons, List.cons.injEq, List.cons.injEq, ih]

/-- Cutting two lists behind the end of the shorter one does not change their order. -/
theorem take_lt_take_of_min_lt [LT α] (hn : min xs.length ys.length < n) : xs.take n < ys.take n ↔ xs < ys := by
  refine induction_of_min_lt (motive := fun n xs ys => xs.take n < ys.take n ↔ xs < ys) ?_ ?_ ?_ hn
  · intro n ys
    cases ys <;> simp
  · intro n xs
    cases xs <;> simp
  · intro n x y xs ys ih
    rw [List.take_succ_cons, List.take_succ_cons, List.cons_lt_cons_iff, List.cons_lt_cons_iff, ih]

end Take

/-- The sign of a result is the unsigned lexicographic order of two byte strings. -/
structure Orders (d : Int) (xs ys : List Byte) : Prop where
  neg : d < 0 ↔ xs < ys
  zero : d = 0 ↔ xs = ys
  pos : 0 < d ↔ ys < xs

namespace Orders

variable {d e : Int} {a b : Byte} {xs ys : List Byte}

theorem nil : Orders 0 [] [] := ⟨by simp, by simp, by simp⟩

/-- A common first byte does not matter. -/
theorem cons (a : Byte) (h : Orders d xs ys) : Orders d (a :: xs) (a :: ys) where
  neg := by simp [h.neg]
  zero := by simp [h.zero]
  pos := by simp [h.pos]

/-- Two first bytes that differ decide. -/
theorem head (hab : a ≠ b) : Orders (a.toNat - b.toNat) (a :: xs) (b :: ys) where
  neg := by
    rw [List.cons_lt_cons_iff, BitVec.lt_def]
    simp only [hab, false_and, or_false]
    omega
  zero := by
    have hne : a.toNat ≠ b.toNat := fun h => hab (BitVec.eq_of_toNat_eq h)
    simp only [List.cons.injEq, hab, false_and, iff_false]
    omega
  pos := by
    rw [List.cons_lt_cons_iff, BitVec.lt_def]
    simp only [Ne.symm hab, false_and, or_false]
    omega

theorem symm (h : Orders d xs ys) : Orders (-d) ys xs where
  neg := by rw [Int.neg_neg_iff_pos, h.pos]
  zero := by rw [Int.neg_eq_zero, h.zero, eq_comm]
  pos := by rw [Int.neg_pos, h.neg]

/-- The terminator of the first string is compared with a byte of the second one. -/
theorem nil_cons (hb : b ≠ 0#8) : Orders ((0#8).toNat - b.toNat) [] (b :: ys) := by
  have hpos : b.toNat ≠ 0 := fun h => hb (BitVec.eq_of_toNat_eq (by simpa using h))
  rw [BitVec.toNat_zero]
  constructor
  · simp only [List.nil_lt_cons, iff_true]
    omega
  · simp only [List.nil_eq, reduceCtorEq, iff_false]
    omega
  · simp only [List.not_lt_nil, iff_false]
    omega

theorem cons_nil (ha : a ≠ 0#8) : Orders (a.toNat - (0#8).toNat) (a :: xs) [] := by
  have h : Orders (-((0#8).toNat - a.toNat)) (a :: xs) [] := (nil_cons ha).symm
  rwa [Int.neg_sub] at h

/-- Results that order the same strings have the same sign. -/
theorem sign_eq (hd : Orders d xs ys) (he : Orders e xs ys) : d.sign = e.sign := by
  obtain hneg | hzero | hpos := lt_trichotomy d 0
  · rw [Int.sign_eq_neg_one_of_neg hneg, Int.sign_eq_neg_one_of_neg (he.neg.mpr (hd.neg.mp hneg))]
  · rw [hzero, he.zero.mpr (hd.zero.mp hzero)]
  · rw [Int.sign_eq_one_of_pos hpos, Int.sign_eq_one_of_pos (he.pos.mpr (hd.pos.mp hpos))]

theorem of_take {n : Nat} (hn : min xs.length ys.length < n) (h : Orders d (xs.take n) (ys.take n)) :
    Orders d xs ys where
  neg := h.neg.trans (take_lt_take_of_min_lt hn)
  zero := h.zero.trans (take_eq_take_of_min_lt hn)
  pos := h.pos.trans (take_lt_take_of_min_lt (by rwa [min_comm]))

end Orders

/-- The loop of `strncmp`, entered with `n` more bytes to compare than the one it
looks at, orders the first `n + 1` bytes. -/
theorem strncmp_loop_orders (s t : CString) (n : Nat) :
    ∃ d, (∀ x y, strncmp_loop (s.bytes.take (n + 1) ++ x) (t.bytes.take (n + 1) ++ y) n = .ok d) ∧
      Orders d (s.chars.take (n + 1)) (t.chars.take (n + 1)) := by
  obtain ⟨as, hs⟩ := s
  obtain ⟨bs, ht⟩ := t
  simp only [CString.bytes]
  induction as generalizing bs n with
  | nil =>
    cases bs with
    | nil => exact ⟨0, by simp [strncmp_loop], .nil⟩
    | cons b bs => exact ⟨_, by simp [strncmp_loop], .nil_cons fun h => ht (by simp [h])⟩
  | cons a as ih =>
    have ha : a ≠ 0#8 := fun h => hs (by simp [h])
    cases bs with
    | nil => exact ⟨_, by simp [strncmp_loop, ha], .cons_nil ha⟩
    | cons b bs =>
      by_cases hab : a = b
      · subst hab
        cases n with
        | zero => exact ⟨0, by simp [strncmp_loop], Orders.nil.cons a⟩
        | succ n =>
          obtain ⟨d, hd, horders⟩ := ih n (fun h => hs (by simp [h])) bs (fun h => ht (by simp [h]))
          exact ⟨d, by simpa [strncmp_loop, ha] using hd, horders.cons a⟩
      · exact ⟨_, by simp [strncmp_loop, hab], .head hab⟩

/-- A loop that may compare more bytes than the first string has is that of `strcmp`. -/
theorem strncmp_loop_eq_strcmp {s : CString} {n : Nat} (hn : s.chars.length ≤ n) (x ys : List Byte) :
    strncmp_loop (s.bytes ++ x) ys n = strcmp (s.bytes ++ x) ys := by
  obtain ⟨as, hs⟩ := s
  simp only [CString.bytes] at hn ⊢
  induction as generalizing ys n with
  | nil =>
    cases ys with
    | nil => rfl
    | cons b ys => simp [strncmp_loop, strcmp]
  | cons a as ih =>
    have ha : a ≠ 0#8 := fun h => hs (by simp [h])
    cases ys with
    | nil => rfl
    | cons b ys =>
      obtain ⟨n, rfl⟩ := Nat.exists_eq_add_one_of_ne_zero (Nat.ne_of_gt (Nat.lt_of_lt_of_le (Nat.succ_pos _) hn))
      by_cases hab : a = b
      · subst hab
        simpa [strncmp_loop, strcmp, ha] using ih ys (fun h => hs (by simp [h])) (by simpa using hn)
      · simp [strncmp_loop, strcmp, hab]

/-- `strcmp` orders two strings and looks at nothing behind their terminators. -/
theorem strcmp_orders (s t : CString) :
    ∃ d, (∀ x y, strcmp (s.bytes ++ x) (t.bytes ++ y) = .ok d) ∧ Orders d s.chars t.chars := by
  obtain ⟨d, hd, horders⟩ := strncmp_loop_orders s t (max s.chars.length t.chars.length)
  have hs : s.chars.length ≤ max s.chars.length t.chars.length := le_max_left _ _
  have ht : t.chars.length ≤ max s.chars.length t.chars.length := le_max_right _ _
  rw [List.take_of_length_le (by omega), List.take_of_length_le (by omega)] at horders
  refine ⟨d, fun x y => ?_, horders⟩
  have hrun := hd x y
  rw [List.take_of_length_le (by simp [CString.bytes]), List.take_of_length_le (by simp [CString.bytes])] at hrun
  rw [← strncmp_loop_eq_strcmp hs, hrun]

theorem strncmp_orders (s t : CString) (n : Nat) :
    ∃ d, (∀ x y, strncmp (s.bytes.take n ++ x) (t.bytes.take n ++ y) n = .ok d) ∧
      Orders d (s.chars.take n) (t.chars.take n) := by
  cases n with
  | zero => exact ⟨0, fun _ _ => rfl, .nil⟩
  | succ n => exact strncmp_loop_orders s t n

/-- On terminated strings `strcmp` is defined and zero exactly for equal ones. -/
theorem strcmp_terminated (s t : CString) (x y : List Byte) :
    ∃ d, strcmp (s.chars ++ 0#8 :: x) (t.chars ++ 0#8 :: y) = .ok d ∧ (d = 0 ↔ s = t) := by
  obtain ⟨d, hd, horders⟩ := strcmp_orders s t
  refine ⟨d, by simpa [CString.bytes] using hd x y, ?_⟩
  rw [horders.zero, CString.ext_iff]

/-- On terminated strings `strncmp` is defined and zero exactly when the first
`n` bytes agree. -/
theorem strncmp_terminated (s t : CString) (x y : List Byte) (n : Nat) :
    ∃ d, strncmp (s.chars ++ 0#8 :: x) (t.chars ++ 0#8 :: y) n = .ok d ∧
      (d = 0 ↔ s.chars.take n = t.chars.take n) := by
  obtain ⟨d, hd, horders⟩ := strncmp_orders s t n
  have hdefined := hd (s.bytes.drop n ++ x) (t.bytes.drop n ++ y)
  rw [← List.append_assoc, List.take_append_drop, ← List.append_assoc, List.take_append_drop] at hdefined
  exact ⟨d, by simpa [CString.bytes] using hdefined, horders.zero⟩

/-- Over the length of a string, bytes of any kind are compared with all of it. -/
theorem strncmp_loop_zero_iff {xs bs rest : List Byte} {d : Int} (hne : bs ≠ []) (hnonul : 0#8 ∉ bs)
    (h : strncmp_loop xs (bs ++ rest) (bs.length - 1) = .ok d) : d = 0 ↔ bs <+: xs := by
  induction bs generalizing xs with
  | nil => exact absurd rfl hne
  | cons b bs ih =>
    cases xs with
    | nil => cases h
    | cons x xs =>
      rw [List.cons_append, strncmp_loop] at h
      rw [List.cons_prefix_cons]
      split at h
      · next hsame =>
        obtain ⟨-, -, hmore, rfl⟩ := hsame
        have hbs : bs ≠ [] := by
          rintro rfl
          simp at hmore
        rw [ih hbs (fun hmem => hnonul (by simp [hmem])) (by simpa using h)]
        simp
      · next hstop =>
        cases h
        have hb : b ≠ 0#8 := fun hb => hnonul (by simp [hb])
        by_cases hxb : x = b
        · have hlast : bs = [] := by simpa [hxb, hb] using hstop
          simp [hxb, hlast]
        · have hdiff : x.toNat ≠ b.toNat := fun heq => hxb (BitVec.eq_of_toNat_eq heq)
          simp only [Ne.symm hxb, false_and, iff_false]
          omega

theorem strncmp_zero_iff {xs : List Byte} {t : CString} {d : Int} (h : strncmp xs t.bytes t.chars.length = .ok d) :
    d = 0 ↔ t.chars <+: xs := by
  obtain ⟨bs, hnonul⟩ := t
  cases bs with
  | nil =>
    cases h
    simp
  | cons b bs => exact strncmp_loop_zero_iff (List.cons_ne_nil b bs) hnonul h

/-- `strncmp` orders the `n`-byte truncations of two strings and `strcmp` the
strings; past the shorter string's length they agree in sign. What is read lies
within the terminators and, for `strncmp`, within `n` bytes: the buffers may end
there, and any bytes that follow leave the results as they are. -/
theorem strncmp_compares (s t : CString) (n : Nat) :
    ∃ d e, (∀ x y, strncmp (s.bytes.take n ++ x) (t.bytes.take n ++ y) n = .ok d) ∧
      (∀ x y, strcmp (s.bytes ++ x) (t.bytes ++ y) = .ok e) ∧
      Orders d (s.chars.take n) (t.chars.take n) ∧ Orders e s.chars t.chars ∧
      (min s.chars.length t.chars.length < n → d.sign = e.sign) := by
  obtain ⟨d, hstrncmp, hd⟩ := strncmp_orders s t n
  obtain ⟨e, hstrcmp, he⟩ := strcmp_orders s t
  refine ⟨d, e, hstrncmp, hstrcmp, hd, he, ?_⟩
  intro hn
  exact (hd.of_take hn).sign_eq he

/-- A name and one that it begins, compared over more bytes than the shorter has. -/
theorem strncmp_compares_got_plt : ∃ d e, strncmp (CString.lit ".got").bytes (CString.lit ".got.plt").bytes 8 = .ok d ∧
    strcmp (CString.lit ".got").bytes (CString.lit ".got.plt").bytes = .ok e ∧ d.sign = e.sign := by
  obtain ⟨d, e, hstrncmp, hstrcmp, -, -, hsign⟩ := strncmp_compares (.lit ".got") (.lit ".got.plt") 8
  refine ⟨d, e, ?_, ?_, hsign (by decide +kernel)⟩
  · have h := hstrncmp ((CString.lit ".got").bytes.drop 8) ((CString.lit ".got.plt").bytes.drop 8)
    rwa [List.take_append_drop, List.take_append_drop] at h
  · simpa using hstrcmp [] []

end ldso.string
