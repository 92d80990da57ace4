import LdSo.Libc.Printf.Directive

open cmodel

namespace ldso.stdio

theorem strnlen_eq {m : Memory 64} {k : Nat} {s : BitVec 64} {text : List Byte} (h : m.text k s = some text) :
    strnlen m k s = .ok text.length := by
  induction k generalizing s text with
  | zero =>
    cases h
    rfl
  | succ k ih =>
    cases text with
    | nil =>
      rw [strnlen, Memory.text_eq_nil_iff.mp h]
      rfl
    | cons c text =>
      obtain ⟨hc, hbyte, hrest⟩ := Memory.text_eq_cons_iff.mp h
      rw [strnlen, hbyte, Outcome.ofOption_some, Outcome.ok_bind, if_neg hc, ih hrest]
      rfl

/-- The buffer that is written: it may be written throughout, and nothing else that is
read lies in it. -/
structure Buffer (m : Memory 64) (buf : BitVec 64) (room : Nat) : Prop where
  writable : m.WritableRegion ⟨buf, room⟩
  fits : room ≤ 2 ^ 31

/-- What the buffer does not cover. -/
abbrev outside (m : Memory 64) (buf : BitVec 64) (room : Nat) : Memory 64 := m.hide [⟨buf, room⟩]

namespace Buffer

variable {m : Memory 64} {buf : BitVec 64} {room : Nat} {written text : List Byte}

/-- Some text was written to the buffer. -/
theorem write (h : Buffer m buf room) (hroom : (written ++ text).length ≤ room) :
    (Cursor.after m buf written).write text = .ok (Cursor.after m buf (written ++ text)) := by
  have hfits := h.fits
  exact Cursor.write_after (by omega) fun i hi => h.writable i (Nat.lt_of_lt_of_le hi hroom)

/-- What lies outside of it is still there. -/
theorem sub (hroom : written.length ≤ room) : (outside m buf room).Sub (Cursor.after m buf written).mem := by
  intro a c hc
  unfold outside Memory.hide at hc
  split at hc
  · cases hc
  · next hnot =>
    have hout : ¬ (⟨buf, written.length⟩ : Region 64).Contains a := by
      intro hin
      exact hnot ⟨_, List.mem_singleton_self _, Nat.lt_of_lt_of_le hin hroom⟩
    exact (Memory.put_of_not_contains hout).trans hc

end Buffer

section Field

variable {v : Conversion} {len : Int} {str : Cursor 64}

/-- What the loop in front of a text leaves of its width. -/
def field_rest (v : Conversion) (len : Int) : Int :=
  if has v.flags LEFT then v.field_width else v.field_width - (v.field_width - len).toNat - 1

theorem pad_field_left (hwidth : -1 ≤ v.field_width) (hwidth' : v.field_width < 2 ^ 31) (hlen : 0 ≤ len) :
    pad_unless (has v.flags LEFT) (chr ' ') (v.field_width - len).toNat v.field_width str =
      str.write (pad_before v len) >>= fun str => .ok (field_rest v len, str) := by
  unfold pad_unless pad_before field_rest
  split
  · rfl
  · exact pad_loop_eq (by omega) hwidth'

/-- The loop behind the text does what is left to do. -/
theorem pad_field_right (hwidth : -1 ≤ v.field_width) (hwidth' : v.field_width < 2 ^ 31) (hlen : 0 ≤ len) :
    pad_loop (chr ' ') (field_rest v len - len).toNat (field_rest v len) str =
      str.write (pad_behind v len) >>= fun str => .ok (field_rest v len - (field_rest v len - len).toNat - 1, str) := by
  have hcount : (field_rest v len - len).toNat = if has v.flags LEFT then (v.field_width - len).toNat else 0 := by
    unfold field_rest
    split
    · rfl
    · omega
  have hlow : -2 ^ 31 ≤ field_rest v len - (field_rest v len - len).toNat - 1 ∧ field_rest v len < 2 ^ 31 := by
    unfold field_rest
    split <;> omega
  rw [pad_loop_eq hlow.1 hlow.2, pad_behind, hcount]

end Field

section Convert

variable {m : Memory 64} {buf : BitVec 64} {room : Nat} {written text : List Byte} {v : Conversion}
  {args args' : va_list}

/-- The bytes are copied from outside of the buffer. -/
theorem copy_loop_eq (hbuf : Buffer m buf room) {s : BitVec 64} (hs : (outside m buf room).Holds s text)
    (hroom : (written ++ text).length ≤ room) :
    copy_loop text.length s (Cursor.after m buf written) = .ok (Cursor.after m buf (written ++ text)) := by
  induction text generalizing s written with
  | nil => rw [List.append_nil]; rfl
  | cons c text ih =>
    obtain ⟨hbyte, hrest⟩ := Memory.holds_cons.mp hs
    have hassoc : written ++ c :: text = (written ++ [c]) ++ text := by simp
    rw [hassoc] at hroom ⊢
    have hput : (Cursor.after m buf written).write [c] = .ok (Cursor.after m buf (written ++ [c])) :=
      hbuf.write (by simp at hroom ⊢; omega)
    rw [Cursor.write_singleton] at hput
    rw [List.length_cons, copy_loop, (Buffer.sub (by simp at hroom; omega)).byte hbyte, Outcome.ofOption_some,
      Outcome.ok_bind, hput, Outcome.ok_bind]
    exact ih hrest hroom

/-- The three parts of a text in its field. -/
theorem write_padded (hbuf : Buffer m buf room) (hroom : (written ++ padded v text).length ≤ room) :
    (Cursor.after m buf written).write (pad_before v text.length) =
        .ok (Cursor.after m buf (written ++ pad_before v text.length)) ∧
      (written ++ pad_before v text.length ++ text).length ≤ room ∧
      (Cursor.after m buf (written ++ pad_before v text.length ++ text)).write (pad_behind v text.length) =
        .ok (Cursor.after m buf (written ++ padded v text)) := by
  have hassoc : written ++ padded v text = written ++ pad_before v text.length ++ text ++ pad_behind v text.length := by
    simp only [padded, List.append_assoc]
  rw [hassoc] at hroom ⊢
  have hbound := hroom
  rw [List.length_append] at hbound
  have hfront : (written ++ pad_before v text.length).length ≤ room := by
    rw [List.length_append] at hbound
    omega
  exact ⟨hbuf.write hfront, by omega, hbuf.write hroom⟩

theorem va_int_ofNat {n : Nat} (h : n < 2 ^ 31) : va_int (BitVec.ofNat 64 n) = n := by
  have hset : (BitVec.ofNat 64 n).setWidth 32 = BitVec.ofNat 32 n := by
    apply BitVec.eq_of_toNat_eq
    simp only [BitVec.toNat_setWidth, BitVec.toNat_ofNat]
    omega
  rw [va_int, hset]
  exact toInt_ofNat_of_lt (by omega)

theorem convert_char_eq (hbuf : Buffer m buf room) (hwidth : -1 ≤ v.field_width) (hwidth' : v.field_width < 2 ^ 31)
    {arg : BitVec 64} (harg : va_arg args = .ok (arg, args'))
    (hroom : (written ++ padded v [arg.setWidth 8]).length ≤ room) :
    convert_char (Cursor.after m buf written) args v =
      .ok (Cursor.after m buf (written ++ padded v [arg.setWidth 8]), args') := by
  obtain ⟨hbefore, hmiddle, hbehind⟩ := write_padded hbuf hroom
  have hput := hbuf.write hmiddle
  rw [Cursor.write_singleton] at hput
  have hone : ((([arg.setWidth 8] : List Byte).length : Nat) : Int) = 1 := rfl
  rw [hone] at hbefore hbehind hput
  unfold convert_char
  simp only [pad_field_left hwidth hwidth' Int.one_nonneg, hbefore, harg, hput,
    pad_field_right hwidth hwidth' Int.one_nonneg, hbehind, Outcome.ok_bind, Outcome.pure_eq]

theorem convert_string_eq (hbuf : Buffer m buf room) (hwidth : -1 ≤ v.field_width) (hwidth' : v.field_width < 2 ^ 31)
    {s : BitVec 64} (harg : va_arg args = .ok (s, args'))
    (htext : (outside m buf room).text (BitVec.ofInt 64 v.precision).toNat s = some text) (hlength : text.length < 2 ^ 31)
    (hroom : (written ++ padded v text).length ≤ room) :
    convert_string (Cursor.after m buf written) args v = .ok (Cursor.after m buf (written ++ padded v text), args') := by
  obtain ⟨hbefore, hmiddle, hbehind⟩ := write_padded hbuf hroom
  have hlen := va_int_ofNat hlength
  have hnonneg : (0 : Int) ≤ text.length := Int.natCast_nonneg _
  have hsub : (outside m buf room).Sub (Cursor.after m buf written).mem :=
    Buffer.sub (by rw [List.length_append] at hroom; omega)
  have hcopy := copy_loop_eq hbuf (Memory.text_eq_some_iff.mp htext).1 hmiddle
  unfold convert_string
  simp only [harg, strnlen_eq (hsub.text htext), hlen, pad_field_left hwidth hwidth' hnonneg, hbefore,
    Int.toNat_natCast, hcopy, pad_field_right hwidth hwidth' hnonneg, hbehind, Outcome.ok_bind, Outcome.pure_eq]

theorem number_writes (hbuf : Buffer m buf room) {num : BitVec 64} {base : Nat} {size precision : Int} {type : BitVec 32}
    (hbase : 2 ≤ base) (hbase' : base ≤ 16) (hsize : -1 ≤ size) (hsize' : size < 2 ^ 31)
    (htext : integer_text num base size precision type = .ok text) (hroom : (written ++ text).length ≤ room) :
    number (Cursor.after m buf written) num base size precision type = .ok (Cursor.after m buf (written ++ text)) := by
  unfold integer_text at htext
  split at htext
  · next hrange =>
    cases htext
    rw [number_eq_write hbase hbase' hsize hsize' hrange.1 hrange.2, hbuf.write hroom]
  · cases htext

theorem integer_format_base {c : Byte} {flags flags' : BitVec 32} {base : Int}
    (h : integer_format c flags = some (base, flags')) : (base.toNat : Int) = base ∧ 2 ≤ base.toNat ∧ base.toNat ≤ 16 := by
  unfold integer_format at h
  split_ifs at h <;> cases h <;> decide

/-- A conversion writes its text, and behind it the format goes on. -/
theorem convert_eq (hbuf : Buffer m buf room) {fmt : BitVec 64} {chars : List Byte}
    (hfmt : StringAt (outside m buf room) fmt chars) (hwidth : -1 ≤ v.field_width) (hwidth' : v.field_width < 2 ^ 31)
    (htext : Conversion.text (outside m buf room) v chars.head? args = .ok (text, args'))
    (hroom : (written ++ text).length ≤ room) :
    ∃ p, convert buf (Cursor.after m buf written) fmt args v = .ok (Cursor.after m buf (written ++ text), p, args') ∧
      StringAt (outside m buf room) (p + 1#64) chars.tail := by
  have hput : ∀ c, (written ++ [c]).length ≤ room →
      (Cursor.after m buf written).put c = .ok (Cursor.after m buf (written ++ [c])) := by
    intro c hc
    rw [← Cursor.write_singleton, hbuf.write hc]
  have hbyte := (hfmt.mono (Buffer.sub (by rw [List.length_append] at hroom; omega))).byte (m := (Cursor.after m buf written).mem)
  cases chars with
  | nil =>
    cases htext
    rw [List.head?_nil, Option.getD_none] at hbyte
    rw [convert, hbyte, Outcome.ofOption_some, Outcome.ok_bind]
    refine ⟨fmt - 1#64, ?_, by simpa using hfmt⟩
    have hnone : integer_format 0#8 v.flags = none := rfl
    simp only [hnone, hput _ hroom, Outcome.ok_bind]
    rfl
  | cons c chars =>
    rw [List.head?_cons, Option.getD_some] at hbyte
    rw [convert, hbyte, Outcome.ofOption_some, Outcome.ok_bind]
    rw [List.head?_cons, Conversion.text] at htext
    by_cases hchar : c = chr 'c'
    · rw [if_pos hchar] at htext
      rw [if_pos hchar]
      obtain ⟨⟨arg, args₁⟩, harg, htext⟩ := Outcome.bind_eq_ok_iff.mp htext
      cases htext
      exact ⟨fmt, by rw [convert_char_eq hbuf hwidth hwidth' harg hroom]; rfl, hfmt.tail⟩
    rw [if_neg hchar] at htext
    rw [if_neg hchar]
    by_cases hstring : c = chr 's'
    · rw [if_pos hstring] at htext
      rw [if_pos hstring]
      obtain ⟨⟨s, args₁⟩, harg, htext⟩ := Outcome.bind_eq_ok_iff.mp htext
      obtain ⟨bytes, hbytes, htext⟩ := Outcome.bind_eq_ok_iff.mp htext
      split at htext
      · next hlength =>
        cases htext
        exact ⟨fmt, by
          rw [convert_string_eq hbuf hwidth hwidth' harg (Outcome.ofOption_eq_ok_iff.mp hbytes) hlength hroom]; rfl,
          hfmt.tail⟩
      · cases htext
    rw [if_neg hstring] at htext
    rw [if_neg hstring]
    by_cases hpointer : c = chr 'p'
    · rw [if_pos hpointer] at htext
      rw [if_pos hpointer]
      obtain ⟨⟨arg, args₁⟩, harg, htext⟩ := Outcome.bind_eq_ok_iff.mp htext
      obtain ⟨bytes, hbytes, htext⟩ := Outcome.bind_eq_ok_iff.mp htext
      cases htext
      have hwrites := number_writes hbuf (by omega) (by omega) (by split <;> omega) (by split <;> omega) hbytes hroom
      refine ⟨fmt, ?_, hfmt.tail⟩
      rw [Nat.cast_ofNat] at hwrites
      simp only [convert_pointer, harg, hwrites, Outcome.ok_bind, Outcome.pure_eq]
    rw [if_neg hpointer] at htext
    rw [if_neg hpointer]
    by_cases hcount : c = chr 'n'
    · rw [if_pos hcount] at htext
      cases htext
    rw [if_neg hcount] at htext
    rw [if_neg hcount]
    by_cases hpercent : c = chr '%'
    · rw [if_pos hpercent] at htext
      rw [if_pos hpercent]
      cases htext
      exact ⟨fmt, by rw [hput _ hroom]; rfl, hfmt.tail⟩
    rw [if_neg hpercent] at htext
    rw [if_neg hpercent]
    cases hinteger : integer_format c v.flags with
    | none =>
      rw [hinteger] at htext
      cases htext
      refine ⟨fmt, ?_, hfmt.tail⟩
      have hwrites := hbuf.write hroom
      rw [Cursor.write_cons] at hwrites
      obtain ⟨str, hstr, hwrites⟩ := Outcome.bind_eq_ok_iff.mp hwrites
      rw [Cursor.write_singleton] at hwrites
      simp only [hstr, Outcome.ok_bind, if_pos hfmt.ne_nul, hwrites, Outcome.pure_eq]
    | some format =>
      obtain ⟨base, flags⟩ := format
      rw [hinteger] at htext
      obtain ⟨⟨arg, args₁⟩, harg, htext⟩ := Outcome.bind_eq_ok_iff.mp htext
      obtain ⟨number, hnumber, htext⟩ := Outcome.bind_eq_ok_iff.mp htext
      cases htext
      obtain ⟨hcast, hbase, hbase'⟩ := integer_format_base hinteger
      have hwrites := number_writes hbuf hbase hbase' hwidth hwidth' hnumber hroom
      rw [hcast] at hwrites
      exact ⟨fmt, by simp only [harg, hwrites, Outcome.ok_bind, Outcome.pure_eq], hfmt.tail⟩

end Convert

section Loop

variable {m : Memory 64} {buf fmt : BitVec 64} {room fuel : Nat} {written text chars : List Byte} {args args' : va_list}

/-- A directive writes its text, and behind it the format goes on. -/
theorem vsprintf_directive_eq (hbuf : Buffer m buf room) (hfmt : StringAt (outside m buf room) (fmt + 1#64) chars)
    (hfuel : chars.length < fuel)
    (htext : (Directive.read chars).1.text (outside m buf room) args = .ok (text, args'))
    (hroom : (written ++ text).length ≤ room) :
    ∃ p, vsprintf_directive buf fuel (Cursor.after m buf written) fmt args =
        .ok (Cursor.after m buf (written ++ text), p, args') ∧
      StringAt (outside m buf room) (p + 1#64) (Directive.read chars).2 := by
  have hsub : (outside m buf room).Sub (Cursor.after m buf written).mem :=
    Buffer.sub (by rw [List.length_append] at hroom; omega)
  obtain ⟨⟨field_width, flags, args₁⟩, hwidth, htext⟩ := Outcome.bind_eq_ok_iff.mp htext
  obtain ⟨⟨precision, args₂⟩, hprecision, htext⟩ := Outcome.bind_eq_ok_iff.mp htext
  change width_value ((chars.takeWhile is_flag).foldl add_flag 0#32) (Count.read (chars.dropWhile is_flag)).1 args =
    .ok (field_width, flags, args₁) at hwidth
  have hlength₁ : (chars.dropWhile is_flag).length ≤ chars.length := (List.dropWhile_suffix is_flag).length_le
  have hlength₂ := Count.read_length_le (chars.dropWhile is_flag)
  have hfuel₁ : (chars.dropWhile is_flag).length < fuel := by omega
  have hfuel₂ : (Count.read (chars.dropWhile is_flag)).2.length < fuel := by omega
  obtain ⟨p₁, hflags, hp₁⟩ : ∃ p, get_flags (Cursor.after m buf written).mem fuel fmt 0#32 =
      .ok ((chars.takeWhile is_flag).foldl add_flag 0#32, p) ∧
      StringAt (outside m buf room) p (chars.dropWhile is_flag) := get_flags_eq hsub hfmt hfuel
  obtain ⟨hlow, hhigh, p₂, hfield_width, hp₂⟩ := get_field_width_eq hsub hp₁ hfuel₁ hwidth
  obtain ⟨p₃, hprec, hp₃⟩ := get_precision_eq hsub hp₂ hfuel₂ hprecision
  obtain ⟨p₄, hqualifier, hp₄⟩ := get_qualifier_eq hsub hp₃
  obtain ⟨p, hconvert, hp⟩ := convert_eq hbuf hp₄ hlow hhigh htext hroom
  refine ⟨p, ?_, hp⟩
  simp only [vsprintf_directive, hflags, hfield_width, hprec, hqualifier, Outcome.ok_bind]
  exact hconvert

/-- The main loop ends at the end of the format. -/
theorem vsprintf_loop_nil (hroom : written.length ≤ room) (hfuel : 0 < fuel) (hfmt : StringAt (outside m buf room) fmt []) :
    vsprintf_loop buf fuel (Cursor.after m buf written) fmt args = .ok (Cursor.after m buf (written ++ [])) := by
  cases fuel with
  | zero => cases hfuel
  | succ fuel =>
    rw [vsprintf_loop, (hfmt.mono (Buffer.sub hroom)).byte, List.append_nil]
    rfl

/-- The main loop writes the texts of the pieces, one behind the other. -/
theorem vsprintf_loop_eq (hbuf : Buffer m buf room) {n : Nat} (hn : chars.length ≤ n) (hfuel : chars.length < fuel)
    (hfmt : StringAt (outside m buf room) fmt chars)
    (htext : pieces_text (outside m buf room) (read_pieces n chars) args = .ok (text, args'))
    (hroom : (written ++ text).length ≤ room) :
    vsprintf_loop buf fuel (Cursor.after m buf written) fmt args = .ok (Cursor.after m buf (written ++ text)) := by
  induction n generalizing chars fuel fmt written text args with
  | zero =>
    obtain rfl : chars = [] := List.eq_nil_of_length_eq_zero (Nat.le_zero.mp hn)
    cases htext
    exact vsprintf_loop_nil (by simpa using hroom) hfuel hfmt
  | succ n ih =>
    cases chars with
    | nil =>
      cases htext
      exact vsprintf_loop_nil (by simpa using hroom) hfuel hfmt
    | cons c chars =>
      cases fuel with
      | zero => cases hfuel
      | succ fuel =>
        have hsub : (outside m buf room).Sub (Cursor.after m buf written).mem :=
          Buffer.sub (by rw [List.length_append] at hroom; omega)
        have hbyte := (hfmt.mono hsub).byte
        rw [List.head?_cons, Option.getD_some] at hbyte
        rw [vsprintf_loop, hbyte, Outcome.ofOption_some, Outcome.ok_bind, if_neg hfmt.ne_nul]
        rw [List.length_cons] at hn hfuel
        rw [read_pieces] at htext
        split at htext
        · next hc =>
          obtain ⟨⟨first, args₁⟩, hfirst, htext⟩ := Outcome.bind_eq_ok_iff.mp htext
          obtain ⟨⟨rest, args₂⟩, hrest, htext⟩ := Outcome.bind_eq_ok_iff.mp htext
          cases htext
          cases hfirst
          rw [← List.append_assoc] at hroom ⊢
          have hwrite : (Cursor.after m buf written).write [c] = .ok (Cursor.after m buf (written ++ [c])) :=
            hbuf.write (by rw [List.length_append] at hroom; omega)
          rw [Cursor.write_singleton] at hwrite
          rw [if_pos hc, hwrite, Outcome.ok_bind]
          exact ih (by omega) (by omega) hfmt.tail hrest hroom
        · next hc =>
          obtain ⟨⟨first, args₁⟩, hfirst, htext⟩ := Outcome.bind_eq_ok_iff.mp htext
          obtain ⟨⟨rest, args₂⟩, hrest, htext⟩ := Outcome.bind_eq_ok_iff.mp htext
          cases htext
          rw [← List.append_assoc] at hroom ⊢
          have hlength := Directive.read_length_le chars
          have hfront : (written ++ first).length ≤ room := by
            rw [List.length_append] at hroom
            omega
          have hchars : chars.length < fuel := by omega
          obtain ⟨p, hdirective, hp⟩ := vsprintf_directive_eq hbuf hfmt.tail hchars hfirst hfront
          rw [if_neg hc, hdirective, Outcome.ok_bind]
          exact ih (by omega) (by omega) hp hrest hroom

end Loop

/-- `vsprintf` does what it is for: at the buffer it writes the text that the format and
its arguments stand for, and NUL; it writes nothing else, and returns the length. -/
theorem vsprintf_writes_format {m : Memory 64} {buf fmt : BitVec 64} {room fuel : Nat} {format : CString} {args : va_list}
    {text : List Byte} (hbuf : Buffer m buf room) (hfmt : (outside m buf room).Holds fmt format.bytes)
    (hfuel : format.chars.length < fuel) (htext : format_text (outside m buf room) format args = .ok text)
    (hroom : text.length < room) :
    vsprintf fuel m buf fmt args = .ok (m.put buf (text ++ [0#8]), text.length) := by
  obtain ⟨⟨_, args'⟩, hpieces, htext⟩ := Outcome.bind_eq_ok_iff.mp htext
  cases htext
  have hfits := hbuf.fits
  have hloop : vsprintf_loop buf fuel (Cursor.after m buf []) fmt args = .ok (Cursor.after m buf ([] ++ text)) :=
    vsprintf_loop_eq hbuf (Nat.le_refl _) hfuel ⟨hfmt, format.nonul⟩ hpieces (by rw [List.nil_append]; omega)
  have hend : (Cursor.after m buf text).write [0#8] = .ok (Cursor.after m buf (text ++ [0#8])) :=
    hbuf.write (by rw [List.length_append]; exact hroom)
  rw [Cursor.write_singleton] at hend
  rw [Cursor.after_nil, List.nil_append] at hloop
  have hpos : (Cursor.after m buf text).pos - buf = BitVec.ofNat 64 text.length := by
    simp only [Cursor.after]
    ring
  simp only [vsprintf, hloop, hend, Outcome.ok_bind, hpos, va_int_ofNat (show text.length < 2 ^ 31 by omega)]
  rfl

end ldso.stdio
