import LdSo.Libc.Printf.Number

open cmodel

namespace ldso.stdio

section Read

/-- The value of a digit. -/
def digit_value (c : Byte) : Nat := if isdigit c then c.toNat - 48 else (c ||| 0x20#8).toNat - 87

def is_digit (base : Nat) (c : Byte) : Bool :=
  (isdigit c || (chr 'a' ≤ c ||| 0x20#8 && c ||| 0x20#8 ≤ chr 'f')) && digit_value c < base

/-- The number that the digits at the start of a text stand for. -/
def read_digits (base : Nat) (text : List Byte) : Nat :=
  Nat.ofDigits base ((text.takeWhile (is_digit base)).reverse.map digit_value)

/-- A text behind the mark of base 16, if it has one. -/
def skip_mark (base : Nat) : List Byte → List Byte
  | a :: b :: text => if base = 16 ∧ a = chr '0' ∧ (b = chr 'x' ∨ b = chr 'X') then text else a :: b :: text
  | text => text

def read_signed (base : Nat) : List Byte → Int
  | [] => 0
  | c :: text =>
    if c = chr '-' then -read_digits base (skip_mark base text)
    else if c = chr '+' then read_digits base (skip_mark base text)
    else read_digits base (skip_mark base (c :: text))

/-- The number a text starts with, as a reader takes it: blanks are skipped, then a sign
and the mark of base 16 may stand in front of the digits. -/
def read_number (base : Nat) (text : List Byte) : Int := read_signed base (text.dropWhile (· = chr ' '))

end Read

section Digits

variable {base : Nat} {type : BitVec 32}

private theorem digit_table : ∀ small : Bool, ∀ d < 16,
    let c := digits.getD d 0#8 ||| if small then 0x20#8 else 0#8
    digit_value c = d ∧ (isdigit c || (chr 'a' ≤ c ||| 0x20#8 && c ||| 0x20#8 ≤ chr 'f')) = true := by decide

/-- A digit is read as what it was written for, in both cases. -/
theorem digit_value_char {d : Nat} (hd : d < 16) : digit_value (digit_char type d) = d := by
  rw [digit_char, locase_eq]
  exact (digit_table _ d hd).1

theorem is_digit_char {d : Nat} (hd : d < base) (hbase : base ≤ 16) : is_digit base (digit_char type d) = true := by
  have htable := (digit_table (has type SMALL) d (hd.trans_le hbase)).2
  rw [is_digit, digit_value_char (hd.trans_le hbase), digit_char, locase_eq]
  simpa [hd] using htable

theorem digit_text_ne_nil (value base : Nat) (type : BitVec 32) : digit_text value base type ≠ [] := by
  unfold digit_text
  split
  · simp
  · next hvalue => simpa using Nat.digits_ne_nil_iff_ne_zero.mpr hvalue

theorem is_digit_of_mem {value : Nat} (hbase : 2 ≤ base) (hbase' : base ≤ 16) :
    ∀ c ∈ digit_text value base type, is_digit base c = true := by
  intro c hc
  unfold digit_text at hc
  split at hc
  · have hzero : chr '0' = digit_char 0#32 0 := by decide
    rw [List.mem_singleton.mp hc, hzero]
    exact is_digit_char (by omega) hbase'
  · rw [List.mem_reverse] at hc
    obtain ⟨d, hd, rfl⟩ := List.mem_map.mp hc
    exact is_digit_char (Nat.digits_lt_base hbase hd) hbase'

/-- The digits of a number are read back as the number. -/
theorem ofDigits_digit_text {value : Nat} (hbase : 2 ≤ base) (hbase' : base ≤ 16) :
    Nat.ofDigits base ((digit_text value base type).reverse.map digit_value) = value := by
  unfold digit_text
  split
  · next hvalue =>
    subst hvalue
    simp only [List.reverse_singleton, List.map_singleton, Nat.ofDigits_singleton]
    decide
  · rw [List.reverse_reverse, List.map_map]
    have hself : (Nat.digits base value).map (digit_value ∘ digit_char type) = (Nat.digits base value).map id := by
      apply List.map_congr_left
      intro d hd
      exact digit_value_char ((Nat.digits_lt_base hbase hd).trans_le hbase')
    rw [hself, List.map_id, Nat.ofDigits_digits]

end Digits

section Layout

variable {base : Nat} {type : BitVec 32} {ds : List Byte}

/-- None of these is taken for a digit. -/
theorem ne_of_is_digit {c d : Byte} (hc : is_digit base c = true)
    (hd : (isdigit d || (chr 'a' ≤ d ||| 0x20#8 && d ||| 0x20#8 ≤ chr 'f')) = false) : c ≠ d := by
  rintro rfl
  rw [is_digit, hd] at hc
  cases hc

theorem read_digits_append (hds : ∀ c ∈ ds, is_digit base c = true) (k : Nat) :
    read_digits base (ds ++ List.replicate k (chr ' ')) = Nat.ofDigits base (ds.reverse.map digit_value) := by
  have hblank : is_digit base (chr ' ') = false := rfl
  have hstop : (List.replicate k (chr ' ')).takeWhile (is_digit base) = [] := by
    cases k with
    | zero => rfl
    | succ k => rw [List.replicate_succ, List.takeWhile_cons_of_neg (by simp [hblank])]
  rw [read_digits, List.takeWhile_append_of_pos hds, hstop, List.append_nil]

/-- Digits in front of blanks do not look like a mark. -/
theorem skip_mark_digits (hds : ∀ c ∈ ds, is_digit base c = true) (k : Nat) :
    skip_mark base (ds ++ List.replicate k (chr ' ')) = ds ++ List.replicate k (chr ' ') := by
  have hx : ∀ c ∈ ds ++ List.replicate k (chr ' '), ¬ (c = chr 'x' ∨ c = chr 'X') := by
    intro c hc
    rw [List.mem_append] at hc
    obtain hc | hc := hc
    · rintro (h | h)
      · exact ne_of_is_digit (hds c hc) (by decide) h
      · exact ne_of_is_digit (hds c hc) (by decide) h
    · rw [List.eq_of_mem_replicate hc]
      decide
  generalize ds ++ List.replicate k (chr ' ') = text at hx
  match text with
  | [] => rfl
  | [_] => rfl
  | a :: b :: text => exact if_neg fun h => hx b (by simp) h.2.2

/-- Zeros in front of the digits change nothing about their value. -/
theorem ofDigits_zeros (k : Nat) :
    Nat.ofDigits base ((List.replicate k (chr '0') ++ ds).reverse.map digit_value) =
      Nat.ofDigits base (ds.reverse.map digit_value) := by
  have hzero : digit_value (chr '0') = 0 := by decide
  rw [List.reverse_append, List.map_append, List.reverse_replicate, List.map_replicate, hzero,
    Nat.ofDigits_append_replicate_zero]

theorem is_digit_zero (hbase : 0 < base) : is_digit base (chr '0') = true := by
  have hzero : digit_value (chr '0') = 0 := by decide
  have hdigit : isdigit (chr '0') = true := rfl
  simpa [is_digit, hzero, hdigit] using hbase

/-- Neither does the mark. -/
theorem read_base_text (hds : ∀ c ∈ ds, is_digit base c = true) (k : Nat) :
    read_digits base (skip_mark base (base_text base type ++ ds ++ List.replicate k (chr ' '))) =
      Nat.ofDigits base (ds.reverse.map digit_value) := by
  have hnone : read_digits base (skip_mark base ([] ++ ds ++ List.replicate k (chr ' '))) =
      Nat.ofDigits base (ds.reverse.map digit_value) := by
    rw [List.nil_append, skip_mark_digits hds, read_digits_append hds]
  rw [base_text]
  by_cases hspecial : has type SPECIAL = true
  · rw [if_pos hspecial]
    by_cases height : base = 8
    · rw [if_pos height]
      have hzero : ∀ c ∈ [chr '0'] ++ ds, is_digit base c = true := by
        intro c hc
        obtain rfl | hc := List.mem_cons.mp hc
        · exact is_digit_zero (by omega)
        · exact hds c hc
      rw [skip_mark_digits hzero, read_digits_append hzero]
      exact ofDigits_zeros 1
    · rw [if_neg height]
      by_cases hsixteen : base = 16
      · rw [if_pos hsixteen]
        have hmark : ∀ c, c = chr 'x' ∨ c = chr 'X' → skip_mark base ([chr '0', c] ++ ds ++ List.replicate k (chr ' ')) =
            ds ++ List.replicate k (chr ' ') := fun c hc => if_pos ⟨hsixteen, rfl, hc⟩
        rw [hmark _ (by split <;> simp), read_digits_append hds]
      · rwa [if_neg hsixteen]
  · rwa [if_neg hspecial]

/-- A sign in front of a number decides about its value. -/
theorem read_sign_text {num : BitVec 64} {text : List Byte} (a : Nat)
    (hhead : ∃ c rest, text = c :: rest ∧ is_digit base c = true) :
    read_number base (List.replicate a (chr ' ') ++ sign_text num type ++ text) =
      if has type SIGN ∧ num.toInt < 0 then -(read_digits base (skip_mark base text) : Int)
      else read_digits base (skip_mark base text) := by
  obtain ⟨c, rest, rfl, hc⟩ := hhead
  have hblank : c ≠ chr ' ' := ne_of_is_digit hc (by decide)
  have hminus : c ≠ chr '-' := ne_of_is_digit hc (by decide)
  have hplus : c ≠ chr '+' := ne_of_is_digit hc (by decide)
  have hskip : ∀ text, (List.replicate a (chr ' ') ++ text).dropWhile (· = chr ' ') = text.dropWhile (· = chr ' ') := by
    intro text
    rw [List.dropWhile_append_of_pos]
    intro d hd
    simpa using List.eq_of_mem_replicate hd
  have hplain : read_signed base (c :: rest) = read_digits base (skip_mark base (c :: rest)) := by
    rw [read_signed, if_neg hminus, if_neg hplus]
  have hstop : (c :: rest).dropWhile (· = chr ' ') = c :: rest := List.dropWhile_cons_of_neg (by simpa using hblank)
  rw [read_number, List.append_assoc, hskip]
  rw [sign_text]
  by_cases hsign : has type SIGN = true
  · by_cases hneg : num.toInt < 0
    · rw [if_pos hsign, if_pos hneg, if_pos ⟨hsign, hneg⟩]
      rfl
    · have hnot : ¬ (has type SIGN = true ∧ num.toInt < 0) := fun h => hneg h.2
      rw [if_pos hsign, if_neg hneg, if_neg hnot]
      by_cases hshow : has type PLUS = true
      · rw [if_pos hshow]
        rfl
      · rw [if_neg hshow]
        by_cases hspace : has type SPACE = true
        · rw [if_pos hspace, List.singleton_append, List.dropWhile_cons_of_pos (by simp), hstop, hplain]
        · rw [if_neg hspace, List.nil_append, hstop, hplain]
  · have hnot : ¬ (has type SIGN = true ∧ num.toInt < 0) := fun h => hsign h.1
    rw [if_neg hsign, if_neg hnot, List.nil_append, hstop, hplain]

/-- A number starts with a digit behind its sign, be it the mark's. -/
theorem head_base_text {text : List Byte} (hbase : 0 < base) (hds : ∀ c ∈ ds, is_digit base c = true) (hne : ds ≠ []) :
    ∃ c rest, base_text base type ++ ds ++ text = c :: rest ∧ is_digit base c = true := by
  obtain ⟨d, rest, rfl⟩ := List.exists_cons_of_ne_nil hne
  rw [base_text]
  by_cases hspecial : has type SPECIAL = true
  · by_cases height : base = 8
    · rw [if_pos hspecial, if_pos height]
      exact ⟨_, _, rfl, is_digit_zero hbase⟩
    · by_cases hsixteen : base = 16
      · rw [if_pos hspecial, if_neg height, if_pos hsixteen]
        exact ⟨_, _, rfl, is_digit_zero hbase⟩
      · rw [if_pos hspecial, if_neg height, if_neg hsixteen]
        exact ⟨_, _, rfl, hds d (by simp)⟩
  · rw [if_neg hspecial]
    exact ⟨_, _, rfl, hds d (by simp)⟩

/-- The value of a number survives its text. -/
theorem read_number_text {num : BitVec 64} {size precision : Int} (hbase : 2 ≤ base) (hbase' : base ≤ 16) :
    read_number base (number_text num base size precision type) = if has type SIGN then num.toInt else num.toNat := by
  have hds : ∀ k, ∀ c ∈ List.replicate k (chr '0') ++ digit_text (magnitude num type) base type, is_digit base c = true := by
    intro k c hc
    obtain hc | hc := List.mem_append.mp hc
    · rw [List.eq_of_mem_replicate hc]
      exact is_digit_zero (by omega)
    · exact is_digit_of_mem hbase hbase' c hc
  obtain ⟨a, k, t, htext⟩ : ∃ a k t, number_text num base size precision type =
      List.replicate a (chr ' ') ++ sign_text num type ++ (base_text base type ++
        (List.replicate k (chr '0') ++ digit_text (magnitude num type) base type) ++ List.replicate t (chr ' ')) :=
    ⟨_, _, _, by simp only [number_text, List.append_assoc]; rfl⟩
  have hne : List.replicate k (chr '0') ++ digit_text (magnitude num type) base type ≠ [] := by
    simp [digit_text_ne_nil]
  rw [htext, read_sign_text a (head_base_text (by omega) (hds k) hne), read_base_text (hds k), ofDigits_zeros,
    ofDigits_digit_text hbase hbase', magnitude]
  have htoInt := num.toInt_eq_toNat_cond
  have htoNat := num.toNat_neg
  have hlt := num.isLt
  by_cases hsign : has type SIGN = true
  · rw [if_pos hsign]
    by_cases hneg : num.toInt < 0
    · rw [if_pos ⟨hsign, hneg⟩, if_pos ⟨hsign, hneg⟩]
      split at htoInt <;> omega
    · have hnot : ¬ (has type SIGN = true ∧ num.toInt < 0) := fun h => hneg h.2
      rw [if_neg hnot, if_neg hnot]
      split at htoInt <;> omega
  · have hnot : ¬ (has type SIGN = true ∧ num.toInt < 0) := fun h => hsign h.1
    rw [if_neg hnot, if_neg hnot, if_neg hsign]

/-- A number consists of digits, blanks, signs and marks. -/
theorem not_mem_number_text {c : Byte} {num : BitVec 64} {size precision : Int} (hbase : 2 ≤ base) (hbase' : base ≤ 16)
    (hdigit : (isdigit c || (chr 'a' ≤ c ||| 0x20#8 && c ||| 0x20#8 ≤ chr 'f')) = false)
    (hc : c ∉ [chr ' ', chr '-', chr '+', chr 'x', chr 'X']) : c ∉ number_text num base size precision type := by
  have hnone : ∀ d, is_digit base d = true → c ≠ d := fun d hd => (ne_of_is_digit hd hdigit).symm
  have hzero : c ≠ chr '0' := hnone _ (is_digit_zero (by omega))
  simp only [List.mem_cons, List.not_mem_nil, or_false, not_or] at hc
  obtain ⟨hblank, hminus, hplus, hx, hX⟩ := hc
  have hsign : c ∉ sign_text num type := by
    unfold sign_text
    split_ifs <;> simp [hblank, hminus, hplus]
  have hmark : c ∉ base_text base type := by
    unfold base_text
    split_ifs <;> simp [hzero, hx, hX]
  have hdigits : c ∉ digit_text (magnitude num type) base type := fun h => hnone c (is_digit_of_mem hbase hbase' c h) rfl
  simp only [number_text, List.mem_append, List.mem_replicate, not_or, not_and]
  exact ⟨⟨⟨⟨⟨fun _ => hblank, hsign⟩, hmark⟩, fun _ => hzero⟩, hdigits⟩, fun _ => hblank⟩

/-- A number takes its width, or what it needs when that is more. -/
theorem number_text_length {num : BitVec 64} {size precision : Int} :
    (number_text num base size precision type).length = max size.toNat
      ((sign_text num type).length + (base_text base type).length +
        max precision.toNat (digit_text (magnitude num type) base type).length) := by
  simp only [number_text, number_fill, precision_zeros, List.length_append, List.length_replicate]
  cases has type ZEROPAD <;> cases has type LEFT <;> simp <;> omega

end Layout

/-- What `number` writes is read back as the number, and takes its width or what it needs. -/
theorem number_reads_back {num : BitVec 64} {base : Nat} {size precision : Int} {type : BitVec 32}
    (hbase : 2 ≤ base) (hbase' : base ≤ 16) (hsize : -1 ≤ size) (hsize' : size < 2 ^ 31) (hprecision : precision < 2 ^ 31 - 8)
    (hmin : has type SIGN = true → num ≠ BitVec.intMin 64) :
    ∃ text : List Byte, (∀ str, number str num base size precision type = str.write text) ∧
      read_number base text = (if has type SIGN then num.toInt else num.toNat) ∧
      text.length = max size.toNat ((sign_text num type).length + (base_text base type).length +
        max precision.toNat (digit_text (magnitude num type) base type).length) :=
  ⟨number_text num base size precision type, fun _ => number_eq_write hbase hbase' hsize hsize' hprecision hmin,
    read_number_text hbase hbase', number_text_length⟩

theorem number_reads_back_negative : ∃ text : List Byte,
    (∀ str, number str (-255#64) 16 8 (-1) (SIGN ||| SPECIAL) = str.write text) ∧
      read_number 16 text = -255 ∧ text.length = 8 := by
  obtain ⟨text, hwrite, hread, hlength⟩ := @number_reads_back (-255#64) 16 8 (-1) (SIGN ||| SPECIAL)
    (by decide) (by decide) (by decide) (by decide) (by decide) (by decide)
  exact ⟨text, hwrite, hread, hlength.trans (by simp [sign_text, base_text, digit_text, magnitude, has]; decide)⟩

end ldso.stdio
