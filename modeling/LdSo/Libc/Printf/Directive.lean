import LdSo.Libc.Printf.Format

open cmodel

namespace ldso.stdio

/-- The rest of a format at a pointer into it. -/
structure StringAt (m : Memory 64) (p : BitVec 64) (chars : List Byte) : Prop where
  holds : m.Holds p (chars ++ [0#8])
  nonul : 0#8 ∉ chars

namespace StringAt

variable {m m' : Memory 64} {p : BitVec 64} {c : Byte} {chars : List Byte}

theorem mono (h : StringAt m p chars) (hsub : m.Sub m') : StringAt m' p chars := ⟨hsub.holds h.holds, h.nonul⟩

theorem byte (h : StringAt m p chars) : m.byte p = some (chars.head?.getD 0#8) := by
  cases chars <;> exact (Memory.holds_cons.mp h.holds).1

theorem ne_nul (h : StringAt m p (c :: chars)) : c ≠ 0#8 := fun hc => h.nonul (by simp [hc])

theorem tail (h : StringAt m p (c :: chars)) : StringAt m (p + 1#64) chars :=
  ⟨(Memory.holds_cons.mp h.holds).2, fun hmem => h.nonul (List.mem_cons_of_mem c hmem)⟩

end StringAt

section Read

variable {m m' : Memory 64} {fmt : BitVec 64} {chars : List Byte} {args args' : va_list} {fuel : Nat}

theorem get_flags_eq {flags : BitVec 32} (hsub : m.Sub m') (h : StringAt m (fmt + 1#64) chars) (hfuel : chars.length < fuel) :
    ∃ p, get_flags m' fuel fmt flags =
        .ok ((chars.takeWhile is_flag).foldl add_flag flags, p) ∧
      StringAt m p (chars.dropWhile is_flag) := by
  induction chars generalizing fmt flags fuel with
  | nil =>
    cases fuel with
    | zero => cases hfuel
    | succ fuel =>
      refine ⟨fmt + 1#64, ?_, h⟩
      rw [get_flags, (h.mono hsub).byte]
      rfl
  | cons c chars ih =>
    cases fuel with
    | zero => cases hfuel
    | succ fuel =>
      rw [get_flags, (h.mono hsub).byte]
      simp only [List.head?_cons, Option.getD_some, Outcome.ofOption_some, Outcome.ok_bind]
      cases hc : flag c with
      | none =>
        have hnot : is_flag c = false := by simp [is_flag, hc]
        rw [List.takeWhile_cons_of_neg (by simp [hnot]), List.dropWhile_cons_of_neg (by simp [hnot])]
        exact ⟨fmt + 1#64, rfl, h⟩
      | some f =>
        have hflag : is_flag c = true := by simp [is_flag, hc]
        rw [List.takeWhile_cons_of_pos hflag, List.dropWhile_cons_of_pos hflag, List.foldl_cons,
          add_flag, hc, Option.getD_some]
        exact ih h.tail (Nat.lt_of_succ_lt_succ hfuel)

theorem isdigit_bounds {c : Byte} (h : isdigit c = true) : 48 ≤ c.toNat ∧ c.toNat ≤ 57 := by
  simp only [isdigit, Bool.and_eq_true, decide_eq_true_eq, BitVec.le_def] at h
  exact h

/-- Digits only make a number larger. -/
theorem le_foldl_digits {ds : List Byte} {i : Int} (hi : 0 ≤ i) (hds : ∀ c ∈ ds, isdigit c = true) :
    i ≤ ds.foldl add_digit i := by
  induction ds generalizing i with
  | nil => exact Int.le_refl _
  | cons c ds ih =>
    have hc := isdigit_bounds (hds c (by simp))
    have hstep : i ≤ add_digit i c := by
      unfold add_digit
      omega
    exact hstep.trans (ih (hi.trans hstep) fun d hd => hds d (by simp [hd]))

theorem skip_atoi_eq {i : Int} (hsub : m.Sub m') (h : StringAt m fmt chars) (hfuel : chars.length < fuel) (hi : 0 ≤ i)
    (hvalue : (chars.takeWhile isdigit).foldl add_digit i < 2 ^ 31 - 48) :
    ∃ p, skip_atoi m' fuel fmt i = .ok ((chars.takeWhile isdigit).foldl add_digit i, p) ∧
      StringAt m p (chars.dropWhile isdigit) := by
  induction chars generalizing fmt i fuel with
  | nil =>
    cases fuel with
    | zero => cases hfuel
    | succ fuel =>
      refine ⟨fmt, ?_, h⟩
      rw [skip_atoi, (h.mono hsub).byte]
      rfl
  | cons c chars ih =>
    cases fuel with
    | zero => cases hfuel
    | succ fuel =>
      rw [skip_atoi, (h.mono hsub).byte]
      simp only [List.head?_cons, Option.getD_some, Outcome.ofOption_some, Outcome.ok_bind]
      by_cases hc : isdigit c = true
      · have hbounds := isdigit_bounds hc
        rw [List.takeWhile_cons_of_pos hc, List.foldl_cons] at hvalue ⊢
        rw [List.dropWhile_cons_of_pos hc]
        -- the value of the digits that are left bounds what is computed here
        have hle : add_digit i c ≤ (chars.takeWhile isdigit).foldl add_digit (add_digit i c) :=
          le_foldl_digits (by unfold add_digit; omega) fun d hd => List.mem_takeWhile_imp hd
        have hstep : add_digit i c = i * 10 + c.toNat - 48 := rfl
        rw [if_pos hc, int_eq (by omega) (by omega), Outcome.ok_bind, int_eq (by omega) (by omega), Outcome.ok_bind,
          int_eq (by omega) (by omega), Outcome.ok_bind]
        exact ih h.tail (Nat.lt_of_succ_lt_succ hfuel) (by omega) hvalue
      · rw [List.takeWhile_cons_of_neg hc, List.dropWhile_cons_of_neg hc, if_neg hc]
        exact ⟨fmt, rfl, h⟩

theorem va_int_bounds (arg : BitVec 64) : -2 ^ 31 ≤ va_int arg ∧ va_int arg < 2 ^ 31 :=
  ⟨BitVec.le_toInt _, BitVec.toInt_lt⟩

/-- The digits of a width or a precision are read as their value. -/
theorem skip_atoi_digits {c : Byte} {value : Int} (hsub : m.Sub m') (h : StringAt m fmt (c :: chars)) (hfuel : (c :: chars).length < fuel)
    (hvalue : (Count.digits ((c :: chars).takeWhile isdigit)).value args = .ok (value, args')) :
    args' = args ∧ 0 ≤ value ∧ value < 2 ^ 31 - 48 ∧ ∃ p, skip_atoi m' fuel fmt 0 = .ok (value, p) ∧
      StringAt m p ((c :: chars).dropWhile isdigit) := by
  rw [Count.value] at hvalue
  split at hvalue
  · next hlt =>
    cases hvalue
    exact ⟨rfl, le_foldl_digits (Int.le_refl 0) fun d hd => List.mem_takeWhile_imp hd, hlt,
      skip_atoi_eq hsub h hfuel (Int.le_refl 0) hlt⟩
  · cases hvalue

theorem get_field_width_eq {flags flags' : BitVec 32} {field_width : Int} (hsub : m.Sub m') (h : StringAt m fmt chars)
    (hfuel : chars.length < fuel)
    (hvalue : width_value flags (Count.read chars).1 args = .ok (field_width, flags', args')) :
    -1 ≤ field_width ∧ field_width < 2 ^ 31 ∧
      ∃ p, get_field_width m' fuel fmt flags args = .ok (field_width, flags', p, args') ∧
        StringAt m p (Count.read chars).2 := by
  cases chars with
  | nil =>
    cases hvalue
    refine ⟨by omega, by omega, fmt, ?_, h⟩
    rw [get_field_width, (h.mono hsub).byte]
    rfl
  | cons c chars =>
    rw [get_field_width, (h.mono hsub).byte]
    simp only [List.head?_cons, Option.getD_some, Outcome.ofOption_some, Outcome.ok_bind]
    rw [Count.read] at hvalue ⊢
    split
    · next hc =>
      rw [if_pos hc] at hvalue
      simp only [width_value] at hvalue
      obtain ⟨⟨value, args₁⟩, hdigits, hvalue⟩ := Outcome.bind_eq_ok_iff.mp hvalue
      simp only [reduceCtorEq, false_and, if_false] at hvalue
      cases hvalue
      obtain ⟨rfl, hnonneg, hlt, p, hskip, hp⟩ := skip_atoi_digits hsub h hfuel hdigits
      exact ⟨by omega, by omega, p, by rw [hskip]; rfl, hp⟩
    · next hc =>
      rw [if_neg hc] at hvalue
      split
      · next hstar =>
        rw [if_pos hstar] at hvalue
        simp only [width_value, Count.value, bind_assoc] at hvalue
        obtain ⟨⟨arg, args₁⟩, harg, hvalue⟩ := Outcome.bind_eq_ok_iff.mp hvalue
        simp only [Outcome.pure_eq, Outcome.ok_bind, true_and] at hvalue
        have hbounds := va_int_bounds arg
        rw [harg, Outcome.ok_bind]
        dsimp only
        split
        · next hneg =>
          rw [if_pos hneg] at hvalue
          split at hvalue
          · cases hvalue
          · cases hvalue
            refine ⟨by omega, by omega, fmt + 1#64, ?_, h.tail⟩
            rw [int_eq (by omega) (by omega)]
            rfl
        · next hneg =>
          rw [if_neg hneg] at hvalue
          cases hvalue
          exact ⟨by omega, by omega, fmt + 1#64, rfl, h.tail⟩
      · next hstar =>
        rw [if_neg hstar] at hvalue
        cases hvalue
        exact ⟨by omega, by omega, fmt, rfl, h⟩

theorem get_precision_count_eq {precision : Int} (hsub : m.Sub m') (h : StringAt m fmt chars) (hfuel : chars.length < fuel)
    (hvalue : (Count.read chars).1.value args = .ok (precision, args')) :
    precision < 2 ^ 31 ∧ ∃ p, get_precision_count m' fuel fmt args = .ok (precision, p, args') ∧
      StringAt m p (Count.read chars).2 := by
  cases chars with
  | nil =>
    cases hvalue
    refine ⟨by omega, fmt, ?_, h⟩
    rw [get_precision_count, (h.mono hsub).byte]
    rfl
  | cons c chars =>
    rw [get_precision_count, (h.mono hsub).byte]
    simp only [List.head?_cons, Option.getD_some, Outcome.ofOption_some, Outcome.ok_bind]
    rw [Count.read] at hvalue ⊢
    split
    · next hc =>
      rw [if_pos hc] at hvalue
      obtain ⟨rfl, hnonneg, hlt, p, hskip, hp⟩ := skip_atoi_digits hsub h hfuel hvalue
      exact ⟨by omega, p, by rw [hskip]; rfl, hp⟩
    · next hc =>
      rw [if_neg hc] at hvalue
      split
      · next hstar =>
        rw [if_pos hstar] at hvalue
        obtain ⟨⟨arg, args₂⟩, harg, hvalue⟩ := Outcome.bind_eq_ok_iff.mp hvalue
        cases hvalue
        exact ⟨(va_int_bounds arg).2, fmt + 1#64, by rw [harg]; rfl, h.tail⟩
      · next hstar =>
        rw [if_neg hstar] at hvalue
        cases hvalue
        exact ⟨by omega, fmt, rfl, h⟩

theorem get_precision_eq {precision : Int} (hsub : m.Sub m') (h : StringAt m fmt chars) (hfuel : chars.length < fuel)
    (hvalue : precision_value (read_precision chars).1 args = .ok (precision, args')) :
    ∃ p, get_precision m' fuel fmt args = .ok (precision, p, args') ∧ StringAt m p (read_precision chars).2 := by
  cases chars with
  | nil =>
    cases hvalue
    refine ⟨fmt, ?_, h⟩
    rw [get_precision, (h.mono hsub).byte]
    rfl
  | cons c chars =>
    rw [get_precision, (h.mono hsub).byte]
    simp only [List.head?_cons, Option.getD_some, Outcome.ofOption_some, Outcome.ok_bind]
    rw [read_precision] at hvalue ⊢
    split
    · next hc =>
      rw [if_pos hc] at hvalue
      obtain ⟨⟨value, args₁⟩, hcount, hvalue⟩ := Outcome.bind_eq_ok_iff.mp hvalue
      obtain ⟨-, p, hrun, hp⟩ := get_precision_count_eq hsub h.tail (Nat.lt_of_succ_lt hfuel) hcount
      cases hvalue
      have hmax : (if value < 0 then 0 else value) = max value 0 := by split <;> omega
      exact ⟨p, by rw [hrun, Outcome.ok_bind, hmax]; rfl, hp⟩
    · next hc =>
      rw [if_neg hc] at hvalue
      cases hvalue
      exact ⟨fmt, rfl, h⟩

theorem get_qualifier_eq (hsub : m.Sub m') (h : StringAt m fmt chars) :
    ∃ p, get_qualifier m' fmt = .ok ((read_qualifier chars).1, p) ∧ StringAt m p (read_qualifier chars).2 := by
  cases chars with
  | nil =>
    refine ⟨fmt, ?_, h⟩
    rw [get_qualifier, (h.mono hsub).byte]
    rfl
  | cons c chars =>
    rw [get_qualifier, (h.mono hsub).byte]
    simp only [List.head?_cons, Option.getD_some, Outcome.ofOption_some, Outcome.ok_bind]
    rw [read_qualifier]
    by_cases hc : c = chr 'h' ∨ c = chr 'l' ∨ c = chr 'L'
    · rw [if_pos hc, if_pos (by simpa [is_qualifier] using hc)]
      exact ⟨fmt + 1#64, rfl, h.tail⟩
    · rw [if_neg hc, if_neg (by simpa [is_qualifier] using hc)]
      exact ⟨fmt, rfl, h⟩

end Read

end ldso.stdio
