import LdSo.Libc.Printf
import Mathlib.Data.Nat.Digits.Lemmas

open cmodel

namespace ldso.stdio

theorem int_eq {x : Int} (hlow : -2 ^ 31 ≤ x) (hhigh : x < 2 ^ 31) : int x = .ok x := if_pos ⟨hlow, hhigh⟩

section Flags

variable {type : BitVec 32}

theorem has_twoPow (type : BitVec 32) (k : Nat) (hk : k < 32) : has type (BitVec.twoPow 32 k) = type.getLsbD k := by
  have hne : BitVec.twoPow 32 k ≠ 0#32 := by
    intro h
    have hbit := congrArg (·.getLsbD k) h
    simp [hk] at hbit
  unfold has
  rw [BitVec.and_twoPow]
  cases type.getLsbD k <;> simp [hne]

theorem has_ZEROPAD : has type ZEROPAD = type.getLsbD 0 := has_twoPow type 0 (by omega)

theorem has_LEFT : has type LEFT = type.getLsbD 4 := has_twoPow type 4 (by omega)

theorem has_SMALL : has type SMALL = type.getLsbD 5 := has_twoPow type 5 (by omega)

theorem has_or (type f g : BitVec 32) : has type (f ||| g) = (has type f || has type g) := by
  have hsplit : type &&& (f ||| g) = (type &&& f) ||| (type &&& g) := by
    ext i hi
    simp [Bool.and_or_distrib_left]
  rw [Bool.eq_iff_iff]
  unfold has
  simp only [hsplit, ne_eq, BitVec.or_eq_zero_iff, decide_eq_true_eq, Bool.or_eq_true, not_and_or]

/-- Nothing is padded with zeros on its right. -/
def justified (type : BitVec 32) : BitVec 32 := if has type LEFT then type &&& ~~~ZEROPAD else type

theorem has_justified_ZEROPAD : has (justified type) ZEROPAD = (has type ZEROPAD && !has type LEFT) := by
  rw [has_ZEROPAD, has_ZEROPAD, has_LEFT, justified, has_LEFT]
  cases type.getLsbD 4 <;> simp [ZEROPAD]

/-- The other flags stay as they are. -/
theorem has_justified {k : Nat} (hk : 0 < k) (hk' : k < 32) :
    has (justified type) (BitVec.twoPow 32 k) = has type (BitVec.twoPow 32 k) := by
  have hone : ZEROPAD = BitVec.twoPow 32 0 := rfl
  rw [has_twoPow _ k hk', has_twoPow _ k hk', justified]
  split
  · rw [hone, BitVec.getLsbD_and, BitVec.getLsbD_not, BitVec.getLsbD_twoPow]
    simp [hk', Nat.ne_of_lt hk]
  · rfl

theorem has_justified_SIGN : has (justified type) SIGN = has type SIGN := has_justified (k := 1) (by omega) (by omega)

theorem has_justified_PLUS : has (justified type) PLUS = has type PLUS := has_justified (k := 2) (by omega) (by omega)

theorem has_justified_SPACE : has (justified type) SPACE = has type SPACE := has_justified (k := 3) (by omega) (by omega)

theorem has_justified_LEFT : has (justified type) LEFT = has type LEFT := has_justified (k := 4) (by omega) (by omega)

theorem has_justified_SPECIAL : has (justified type) SPECIAL = has type SPECIAL :=
  has_justified (k := 6) (by omega) (by omega)

theorem has_justified_ZEROPAD_LEFT : has (justified type) (ZEROPAD + LEFT) = (has type ZEROPAD || has type LEFT) := by
  have hsum : ZEROPAD + LEFT = ZEROPAD ||| LEFT := rfl
  rw [hsum, has_or, has_justified_ZEROPAD, has_justified_LEFT]
  cases has type LEFT <;> simp

end Flags

section Text

/-- The value whose digits are printed. -/
def magnitude (num : BitVec 64) (type : BitVec 32) : Nat :=
  if has type SIGN ∧ num.toInt < 0 then (-num).toNat else num.toNat

def sign_text (num : BitVec 64) (type : BitVec 32) : List Byte :=
  if has type SIGN then
    if num.toInt < 0 then [chr '-']
    else if has type PLUS then [chr '+']
    else if has type SPACE then [chr ' ']
    else []
  else []

def base_text (base : Nat) (type : BitVec 32) : List Byte :=
  if has type SPECIAL then
    if base = 8 then [chr '0'] else if base = 16 then [chr '0', if has type SMALL then chr 'x' else chr 'X'] else []
  else []

/-- The character of a digit below 16. -/
def digit_char (type : BitVec 32) (d : Nat) : Byte := digits.getD d 0#8 ||| (type &&& SMALL).setWidth 8

/-- The digits from the most significant one on. -/
def digit_text (value base : Nat) (type : BitVec 32) : List Byte :=
  if value = 0 then [chr '0'] else ((Nat.digits base value).map (digit_char type)).reverse

/-- The zeros that the precision asks for, besides the digits there are. -/
def precision_zeros (value base : Nat) (precision : Int) (type : BitVec 32) : Nat :=
  (precision - (digit_text value base type).length).toNat

/-- What the width asks for besides sign, prefix, zeros and digits. -/
def number_fill (num : BitVec 64) (base : Nat) (size precision : Int) (type : BitVec 32) : Nat :=
  (size - ((sign_text num type).length + (base_text base type).length +
    (precision_zeros (magnitude num type) base precision type + (digit_text (magnitude num type) base type).length) : Nat)).toNat

/-- The text of a number: the padding is spaces in front, zeros behind the prefix, or
spaces at the end. -/
def number_text (num : BitVec 64) (base : Nat) (size precision : Int) (type : BitVec 32) : List Byte :=
  let fill := number_fill num base size precision type
  List.replicate (if has type ZEROPAD ∨ has type LEFT then 0 else fill) (chr ' ') ++ sign_text num type ++ base_text base type ++
    List.replicate ((if has type ZEROPAD ∧ ¬ has type LEFT then fill else 0) +
      precision_zeros (magnitude num type) base precision type) (chr '0') ++
    digit_text (magnitude num type) base type ++ List.replicate (if has type LEFT then fill else 0) (chr ' ')

end Text

section Steps

variable {str : Cursor 64} {c : Byte}

theorem pad_loop_eq {n : Nat} {size : Int} (hlow : -2 ^ 31 ≤ size - n - 1) (hhigh : size < 2 ^ 31) :
    pad_loop c n size str = str.write (List.replicate n c) >>= fun str => .ok (size - n - 1, str) := by
  induction n generalizing size str with
  | zero =>
    rw [pad_loop, int_eq (by omega) (by omega)]
    simp
  | succ n ih =>
    have hnext : size - (n + 1 : Nat) - 1 = size - 1 - n - 1 := by omega
    rw [pad_loop, int_eq (by omega) (by omega), Outcome.ok_bind, List.replicate_succ, Cursor.write_cons, bind_assoc, hnext]
    congr 1
    funext str
    exact ih (by omega) (by omega)

/-- What a loop that pads up to a width leaves of it. -/
def rest_of_width (skip : Bool) (size : Int) : Int := if skip then size else min size 0 - 1

theorem rest_of_width_bounds (skip : Bool) (size : Int) :
    min size 0 - 1 ≤ rest_of_width skip size ∧ rest_of_width skip size ≤ max size 0 := by
  unfold rest_of_width
  split <;> omega

/-- The loop that pads up to a width, unless it is skipped. -/
theorem pad_unless_eq {skip : Bool} {size : Int} (hlow : -2 ^ 31 < size) (hhigh : size < 2 ^ 31) :
    pad_unless skip c size.toNat size str =
      str.write (List.replicate (if skip then 0 else size.toNat) c) >>= fun str => .ok (rest_of_width skip size, str) := by
  cases skip with
  | true => rfl
  | false =>
    have hleft : size - size.toNat - 1 = rest_of_width false size := by
      simp only [rest_of_width, Bool.false_eq_true, if_false]
      omega
    simp only [pad_unless, Bool.false_eq_true, if_false]
    rw [pad_loop_eq (by omega) hhigh, hleft]

/-- The second padding has something to do only for zeros. -/
theorem padding_zeros (left zero : Bool) (room : Int) :
    List.replicate (if left then 0 else (rest_of_width (zero || left) room).toNat)
        (if (zero && !left) = true then chr '0' else chr ' ') =
      List.replicate (if zero = true ∧ ¬ left = true then room.toNat else 0) (chr '0') := by
  cases left with
  | true => simp
  | false =>
    cases zero with
    | true => simp [rest_of_width]
    | false =>
      have hnone : (min room 0 - 1).toNat = 0 := by omega
      simp [rest_of_width, hnone]

/-- The last padding has something to do only on the right. -/
theorem padding_spaces (left zero : Bool) (room : Int) :
    (rest_of_width left (rest_of_width (zero || left) room)).toNat = if left then room.toNat else 0 := by
  cases left with
  | true => simp [rest_of_width]
  | false =>
    simp only [rest_of_width, Bool.false_eq_true, if_false]
    omega

theorem number_reverse_eq {tmp : List Byte} {i : Nat} (hi : i ≤ tmp.length) :
    number_reverse tmp i str = str.write (tmp.take i).reverse := by
  induction i generalizing str with
  | zero => simp [number_reverse]
  | succ i ih =>
    have hget : tmp[i]? = some tmp[i] := List.getElem?_eq_getElem hi
    rw [number_reverse, hget, Outcome.ofOption_some, Outcome.ok_bind, List.take_add_one, hget, Option.toList_some,
      List.reverse_append, List.reverse_singleton, List.singleton_append, Cursor.write_cons]
    congr 1
    funext str
    exact ih (by omega)

theorem number_sign_eq {num : BitVec 64} {size : Int} {type : BitVec 32} (hlow : -2 ^ 31 < size) (hhigh : size < 2 ^ 31)
    (hmin : has type SIGN = true → num ≠ BitVec.intMin 64) :
    ∃ sign, number_sign num size (justified type) =
        .ok (sign, BitVec.ofNat 64 (magnitude num type), size - (sign_text num type).length) ∧
      ∀ str : Cursor 64, put_sign sign str = str.write (sign_text num type) := by
  have hsize : int (size - 1) = .ok (size - 1) := int_eq (by omega) (by omega)
  have hput : ∀ c ≠ 0#8, ∀ str : Cursor 64, put_sign c str = str.write [c] := by
    intro c hc str
    rw [put_sign, if_pos hc, Cursor.write_singleton]
  have hself : ∀ x : BitVec 64, BitVec.ofNat 64 x.toNat = x := fun x => by simp
  simp only [number_sign, magnitude, sign_text, has_justified_SIGN, has_justified_PLUS, has_justified_SPACE]
  by_cases hsign : has type SIGN = true
  · by_cases hneg : num.toInt < 0
    · refine ⟨chr '-', ?_, ?_⟩
      · simp only [hsign, hneg, hmin hsign, and_self, if_true, if_false, hsize, Outcome.ok_bind, hself]
        rfl
      · simp only [hsign, hneg, if_true]
        exact hput _ (by decide)
    · by_cases hplus : has type PLUS = true
      · refine ⟨chr '+', ?_, ?_⟩
        · simp only [hsign, hneg, hplus, and_false, if_true, if_false, hsize, Outcome.ok_bind, hself]
          rfl
        · simp only [hsign, hneg, hplus, if_true, if_false]
          exact hput _ (by decide)
      · by_cases hspace : has type SPACE = true
        · refine ⟨chr ' ', ?_, ?_⟩
          · simp only [hsign, hneg, hplus, hspace, and_false, if_true, if_false, hsize, Outcome.ok_bind, hself]
            rfl
          · simp only [hsign, hneg, hplus, hspace, if_true, if_false]
            exact hput _ (by decide)
        · exact ⟨0#8, by simp [hsign, hneg, hplus, hspace], by simp [put_sign, hsign, hneg, hplus, hspace]⟩
  · exact ⟨0#8, by simp [hsign], by simp [put_sign, hsign]⟩

theorem number_special_eq {base : Nat} {size : Int} {type : BitVec 32} (hlow : -2 ^ 31 + 2 ≤ size) (hhigh : size < 2 ^ 31) :
    number_special base size (justified type) = .ok (size - (base_text base type).length) := by
  rw [number_special, has_justified_SPECIAL, base_text]
  by_cases hspecial : has type SPECIAL = true
  · by_cases height : base = 8
    · subst height
      have hint : int (size - 1) = .ok (size - 1) := int_eq (by omega) (by omega)
      simp [hspecial, hint]
    · by_cases hsixteen : base = 16
      · subst hsixteen
        have hint : int (size - 2) = .ok (size - 2) := int_eq (by omega) (by omega)
        simp [hspecial, hint]
      · have height' : (base : Int) ≠ 8 := by omega
        have hsixteen' : (base : Int) ≠ 16 := by omega
        simp [hspecial, height, hsixteen, height', hsixteen']
  · simp [hspecial]

theorem locase_eq (type : BitVec 32) : (type &&& SMALL).setWidth 8 = if has type SMALL then 0x20#8 else 0#8 := by
  have hmask : type &&& SMALL = if type.getLsbD 5 then SMALL else 0#32 := BitVec.and_twoPow type 5
  rw [has_SMALL, hmask]
  cases type.getLsbD 5 <;> decide

theorem number_base_eq {base : Nat} {type : BitVec 32} :
    number_base base (justified type) ((type &&& SMALL).setWidth 8) str = str.write (base_text base type) := by
  have hlocase : chr 'X' ||| (type &&& SMALL).setWidth 8 = if has type SMALL then chr 'x' else chr 'X' := by
    rw [locase_eq]
    split <;> decide
  rw [number_base, has_justified_SPECIAL, base_text]
  by_cases hspecial : has type SPECIAL = true
  · by_cases height : base = 8
    · subst height
      simp [hspecial]
    · by_cases hsixteen : base = 16
      · subst hsixteen
        rw [hlocase]
        simp only [hspecial, if_true, if_neg height, Cursor.write_cons str, Cursor.write_singleton]
        rfl
      · have height' : (base : Int) ≠ 8 := by omega
        have hsixteen' : (base : Int) ≠ 16 := by omega
        simp [hspecial, height, hsixteen, height', hsixteen']
  · simp [hspecial]

/-- With room for them, the loop appends the digits from the least significant one on. -/
theorem number_digits_eq {base : Nat} {type : BitVec 32} (hbase : 2 ≤ base) (hbase' : base ≤ 16) {room : Nat}
    {num : BitVec 64} {tmp : List Byte} (hroom : num.toNat < base ^ room) :
    number_digits base ((type &&& SMALL).setWidth 8) room num tmp =
      .ok (tmp ++ (Nat.digits base num.toNat).map (digit_char type)) := by
  induction room generalizing num tmp with
  | zero =>
    have hnum : num = 0#64 := by
      apply BitVec.eq_of_toNat_eq
      simpa using hroom
    simp [number_digits, hnum]
  | succ room ih =>
    rw [number_digits]
    by_cases hnum : num = 0#64
    · simp [hnum]
    · have hpos : num.toNat ≠ 0 := fun h => hnum (BitVec.eq_of_toNat_eq (by simpa using h))
      have hdiv : ((BitVec.ofInt 32 base).setWidth 64).toNat = base := by
        rw [BitVec.ofInt_natCast, BitVec.toNat_setWidth, BitVec.toNat_ofNat]
        omega
      have hmod : num.toNat % base < 16 := (Nat.mod_lt _ (by omega)).trans_le hbase'
      have hdigit : digits[num.toNat % base]? = some (digits.getD (num.toNat % base) 0#8) := by
        rw [List.getD_eq_getElem?_getD, List.getElem?_eq_getElem (show num.toNat % base < digits.length from hmod),
          Option.getD_some]
      have hquot : (num / (BitVec.ofInt 32 base).setWidth 64).toNat = num.toNat / base := by
        rw [BitVec.toNat_udiv, hdiv]
      have hnext : (num / (BitVec.ofInt 32 base).setWidth 64).toNat < base ^ room := by
        rw [hquot, Nat.div_lt_iff_lt_mul (by omega), ← pow_succ]
        exact hroom
      simp only [if_neg hnum, BitVec.toNat_umod, hdiv, hdigit, Outcome.ofOption_some, Outcome.ok_bind]
      rw [ih hnext, hquot, Nat.digits_def' (by omega) (Nat.pos_of_ne_zero hpos), List.map_cons, List.append_assoc]
      rfl

end Steps

/-- The digits as `tmp` holds them, from the least significant one on. -/
def digit_tmp (value base : Nat) (type : BitVec 32) : List Byte :=
  if value = 0 then [chr '0'] else (Nat.digits base value).map (digit_char type)

theorem digit_text_eq (value base : Nat) (type : BitVec 32) : digit_text value base type = (digit_tmp value base type).reverse := by
  unfold digit_text digit_tmp
  split <;> rfl

theorem digit_tmp_length_le {value base : Nat} {type : BitVec 32} (hbase : 2 ≤ base) (hvalue : value < 2 ^ 64) :
    (digit_tmp value base type).length ≤ 64 := by
  unfold digit_tmp
  split
  · simp
  · rw [List.length_map, Nat.digits_length_le_iff hbase]
    exact hvalue.trans_le (Nat.pow_le_pow_left hbase 64)

theorem number_tmp_eq {value base : Nat} {type : BitVec 32} (hbase : 2 ≤ base) (hbase' : base ≤ 16)
    (hvalue : value < 2 ^ 64) :
    number_tmp base ((type &&& SMALL).setWidth 8) (BitVec.ofNat 64 value) = .ok (digit_tmp value base type) := by
  have htoNat : (BitVec.ofNat 64 value).toNat = value := by
    rw [BitVec.toNat_ofNat, Nat.mod_eq_of_lt hvalue]
  have hzero : BitVec.ofNat 64 value = 0#64 ↔ value = 0 := by
    rw [← BitVec.toNat_inj, htoNat]
    rfl
  have hroom : (BitVec.ofNat 64 value).toNat < base ^ 66 := by
    rw [htoNat]
    calc value < 2 ^ 64 := hvalue
      _ ≤ 2 ^ 66 := by omega
      _ ≤ base ^ 66 := Nat.pow_le_pow_left hbase 66
  simp only [number_tmp, digit_tmp, hzero]
  split
  · rfl
  · rw [number_digits_eq hbase hbase' hroom, htoNat, List.nil_append]

theorem magnitude_lt (num : BitVec 64) (type : BitVec 32) : magnitude num type < 2 ^ 64 := by
  unfold magnitude
  split <;> exact BitVec.isLt _

/-- `number` writes the text of its number, whatever the memory: it never runs out of
the 66 bytes of `tmp`. -/
theorem number_eq_write {str : Cursor 64} {num : BitVec 64} {base : Nat} {size precision : Int} {type : BitVec 32}
    (hbase : 2 ≤ base) (hbase' : base ≤ 16) (hsize : -1 ≤ size) (hsize' : size < 2 ^ 31) (hprecision : precision < 2 ^ 31 - 8)
    (hmin : has type SIGN = true → num ≠ BitVec.intMin 64) :
    number str num base size precision type = str.write (number_text num base size precision type) := by
  obtain ⟨sign, hnumber_sign, hput⟩ := @number_sign_eq num size type (by omega) hsize' hmin
  have hsign : (sign_text num type).length ≤ 1 := by
    unfold sign_text
    split_ifs <;> simp
  have hspecial : (base_text base type).length ≤ 2 := by
    unfold base_text
    split_ifs <;> simp
  have hlength : (digit_tmp (magnitude num type) base type).length ≤ 64 := digit_tmp_length_le hbase (magnitude_lt num type)
  have hnull : ¬ ((base : Int) < 2 ∨ (base : Int) > 16) := by omega
  have hjustified : (if has type LEFT then type &&& ~~~ZEROPAD else type) = justified type := rfl
  unfold number
  rw [if_neg hnull]
  simp only [hjustified, hnumber_sign, Outcome.ok_bind, number_tmp_eq hbase hbase' (magnitude_lt num type), hput,
    number_special_eq (show -2 ^ 31 + 2 ≤ size - (sign_text num type).length by omega)
      (show size - (sign_text num type).length < 2 ^ 31 by omega), number_base_eq]
  have htext : (digit_text (magnitude num type) base type).length = (digit_tmp (magnitude num type) base type).length := by
    rw [digit_text_eq, List.length_reverse]
  have hzeros : precision_zeros (magnitude num type) base precision type =
      (precision - (digit_tmp (magnitude num type) base type).length).toNat := by
    rw [precision_zeros, htext]
  unfold number_text number_fill
  rw [htext, digit_text_eq]
  generalize digit_tmp (magnitude num type) base type = tmp at *
  generalize precision_zeros (magnitude num type) base precision type = zeros at *
  generalize sign_text num type = before at *
  generalize base_text base type = mark at *
  have hmax : (if (tmp.length : Int) > precision then (tmp.length : Int) else precision) = tmp.length + zeros := by
    split <;> omega
  obtain ⟨room, hroom⟩ : ∃ room : Int, room = size - before.length - mark.length - (tmp.length + zeros) := ⟨_, rfl⟩
  have hfill : (size - (before.length + mark.length + (zeros + tmp.length) : Nat)).toNat = room.toNat := by omega
  have hwidth : ((tmp.length : Int) + zeros - tmp.length).toNat = zeros := by omega
  rw [hmax, ← hroom, int_eq (by omega) (by omega), Outcome.ok_bind, hfill, has_justified_ZEROPAD_LEFT,
    has_justified_LEFT, has_justified_ZEROPAD, hwidth]
  generalize has type LEFT = left
  generalize has type ZEROPAD = zero
  have hspaces := rest_of_width_bounds (zero || left) room
  have hpadding := rest_of_width_bounds left (rest_of_width (zero || left) room)
  have hlast : ∀ str : Cursor 64, (pad_loop (chr ' ') (if left then room.toNat else 0)
      (rest_of_width left (rest_of_width (zero || left) room)) str >>= fun out => pure out.2) =
      str.write (List.replicate (if left then room.toNat else 0) (chr ' ')) := by
    intro str
    rw [← padding_spaces left zero room, pad_loop_eq (by omega) (by omega), bind_assoc]
    exact bind_pure _
  have hprecise : ∀ str : Cursor 64, pad_loop (chr '0') zeros (tmp.length + zeros) str =
      str.write (List.replicate zeros (chr '0')) >>= fun str => .ok ((tmp.length : Int) + zeros - zeros - 1, str) :=
    fun str => pad_loop_eq (by omega) (by omega)
  simp only [pad_unless_eq (show -2 ^ 31 < room by omega) (show room < 2 ^ 31 by omega),
    pad_unless_eq (show -2 ^ 31 < rest_of_width (zero || left) room by omega)
      (show rest_of_width (zero || left) room < 2 ^ 31 by omega), bind_assoc, Outcome.ok_bind,
    hprecise, number_reverse_eq (Nat.le_refl _),
    List.take_length, Cursor.write_append, List.replicate_add, padding_zeros, padding_spaces, hlast]
  simp only [Bool.or_eq_true]

end ldso.stdio
