import LdSo.Main.Options

open cmodel

namespace ldso.options

open elf stdio

section Directives

variable {m : Memory 64} {args : va_list}

/-- What `%s` stands for. -/
theorem string_text {p : elf_addr} {s : CString} (hs : m.Holds p s.bytes) (hlength : s.chars.length < 2 ^ 31) :
    Directive.text m ⟨[], .absent, none, none, some (chr 's')⟩ (p :: args) = .ok (s.chars, args) := by
  have htext : m.text (BitVec.ofInt 64 (-1)).toNat p = some s.chars :=
    Memory.text_of_holds hs s.nonul (hlength.trans (by decide))
  have hpadded : padded ⟨0#32, -1, -1, none⟩ s.chars = s.chars := by
    have hnone : ((-1 : Int) - s.chars.length).toNat = 0 := by omega
    simp [padded, pad_before, pad_behind, hnone]
  have hne : chr 's' ≠ chr 'c' := by decide
  simp only [Directive.text, width_value, Count.value, precision_value, Conversion.text, List.foldl_nil, Outcome.ok_bind,
    if_neg hne, if_true, va_arg, htext, Outcome.ofOption_some, hlength, hpadded, Outcome.pure_eq, reduceCtorEq, false_and,
    if_false]

/-- What the conversion of a `long` stands for. -/
theorem long_text {v : BitVec 64} {c : Byte} {ds : List Byte} {width : Count} {base : Nat} {size : Int}
    {flags type : BitVec 32}
    (hwidth : width_value (ds.foldl add_flag 0#32) width (v :: args) = .ok (size, flags, v :: args))
    (hinteger : integer_format c flags = some ((base : Int), type)) (hc : c ∉ [chr 'c', chr 's', chr 'p', chr 'n', chr '%'])
    (hmin : has type SIGN = true → v ≠ BitVec.intMin 64) :
    Directive.text m ⟨ds, width, none, some (chr 'l'), some c⟩ (v :: args) =
      .ok (number_text v base size (-1) type, args) := by
  have hrange : (-1 : Int) < 2 ^ 31 - 8 ∧ (has type SIGN = true → v ≠ BitVec.intMin 64) := ⟨by decide, hmin⟩
  simp only [List.mem_cons, List.not_mem_nil, not_or, or_false] at hc
  simp only [Directive.text, hwidth, precision_value, Conversion.text, Outcome.ok_bind, if_neg hc.1, if_neg hc.2.1,
    if_neg hc.2.2.1, if_neg hc.2.2.2.1, if_neg hc.2.2.2.2, hinteger, va_arg, integer_arg, if_true, integer_text,
    if_pos hrange, Int.toNat_natCast, Outcome.pure_eq]

end Directives

section Trace

/-- All sixteen digits of an address. -/
def address_text (a : elf_addr) : List Byte := number_text a 16 16 (-1) (ZEROPAD ||| SMALL)

/-- What is printed about a node, without the end of the line. -/
def trace_text (name : CString) (l_ld : elf_addr) : List Byte :=
  [chr '\t'] ++ name.chars ++ (CString.lit " (0x").chars ++ address_text l_ld ++ [chr ')']

def trace_line (name : CString) (l_ld : elf_addr) : List Byte := trace_text name l_ld ++ [chr '\n']

theorem trace_format_pieces : pieces trace_format =
    [.char (chr '\t'), .directive ⟨[], .absent, none, none, some (chr 's')⟩, .char (chr ' '), .char (chr '('),
      .char (chr '0'), .char (chr 'x'), .directive ⟨[chr '0'], .digits [chr '1', chr '6'], none, some (chr 'l'), some (chr 'x')⟩,
      .char (chr ')'), .char (chr '\n')] := by decide

theorem trace_format_text {m : Memory 64} {name : CString} {p v : elf_addr} (hname : m.Holds p name.bytes)
    (hlength : name.chars.length < 2 ^ 31) : format_text m trace_format [p, v] = .ok (trace_line name v) := by
  have hsign : has (ZEROPAD ||| SMALL) SIGN = false := rfl
  have hdigits : digits_value [chr '1', chr '6'] = 16 := by decide
  have hwidth : width_value ([chr '0'].foldl add_flag 0#32) (.digits [chr '1', chr '6']) [v] = .ok (16, ZEROPAD, [v]) := by
    have hflags : [chr '0'].foldl add_flag 0#32 = ZEROPAD := by decide
    simp [width_value, Count.value, hdigits, hflags]
  have hinteger : integer_format (chr 'x') ZEROPAD = some (((16 : Nat) : Int), ZEROPAD ||| SMALL) := by decide
  have haddress : Directive.text m ⟨[chr '0'], .digits [chr '1', chr '6'], none, some (chr 'l'), some (chr 'x')⟩ [v] =
      .ok (number_text v 16 16 (-1) (ZEROPAD ||| SMALL), []) :=
    long_text hwidth hinteger (by decide) (by simp [hsign])
  have hopen : (CString.lit " (0x").chars = [chr ' ', chr '(', chr '0', chr 'x'] := rfl
  simp only [format_text, trace_format_pieces, pieces_text, Piece.text, Outcome.ok_bind, string_text hname hlength, haddress,
    Outcome.pure_eq, trace_line, trace_text, address_text, hopen]
  simp

theorem magnitude_unsigned {num : BitVec 64} {type : BitVec 32} (h : has type SIGN = false) :
    magnitude num type = num.toNat := by
  simp [magnitude, h]

/-- An address is as wide as its digits can get. -/
theorem address_text_length (a : elf_addr) : (address_text a).length = 16 := by
  have hdigits : (digit_text a.toNat 16 (ZEROPAD ||| SMALL)).length ≤ 16 := by
    unfold digit_text
    split
    · simp
    · rw [List.length_reverse, List.length_map, Nat.digits_length_le_iff (by decide)]
      exact a.isLt
  have hsign : sign_text a (ZEROPAD ||| SMALL) = [] := rfl
  have hmark : base_text 16 (ZEROPAD ||| SMALL) = [] := rfl
  rw [address_text, number_text_length, hsign, hmark, magnitude_unsigned rfl]
  simpa using hdigits

theorem read_address_text (a : elf_addr) : read_number 16 (address_text a) = a.toNat :=
  read_number_text (by decide) (by decide)

theorem trace_text_length (name : CString) (l_ld : elf_addr) : (trace_text name l_ld).length = name.chars.length + 22 := by
  have hopen : (CString.lit " (0x").chars.length = 4 := rfl
  simp only [trace_text, List.length_append, List.length_singleton, address_text_length, hopen]
  omega

/-- The characters of a line are those of the name, and a few others. -/
theorem not_mem_trace_text {c : Byte} {name : CString} (l_ld : elf_addr) (hname : c ∉ name.chars)
    (hc : c = 0#8 ∨ c = chr '\n') : c ∉ trace_text name l_ld := by
  have haddress : c ∉ address_text l_ld := by
    obtain rfl | rfl := hc
    · exact not_mem_number_text (by decide) (by decide) (by decide) (by decide)
    · exact not_mem_number_text (by decide) (by decide) (by decide) (by decide)
  have hopen : c ∉ (CString.lit " (0x").chars := by
    obtain rfl | rfl := hc <;> decide
  have hother : c ∉ [chr '\t'] ∧ c ∉ [chr ')'] := by
    obtain rfl | rfl := hc <;> decide
  simp only [trace_text, List.mem_append, not_or]
  exact ⟨⟨⟨⟨hother.1, hname⟩, hopen⟩, haddress⟩, hother.2⟩

end Trace

section Auxv

variable {m : Memory 64} {string : elf_addr → CString}

/-- A value of the auxiliary vector as it is printed; some are pointers to strings. -/
def OptionType.text (string : elf_addr → CString) : OptionType → elf_addr → List Byte
  | .STR, a_val => (string a_val).chars
  | .HEX, a_val => (CString.lit "0x").chars ++ number_text a_val 16 (-1) (-1) SMALL
  | .DEC, a_val => number_text a_val 10 (-1) (-1) SIGN

/-- What is needed of a value to be printed: a string of moderate length, no number that
has no opposite. -/
def OptionType.Printable (m : Memory 64) (string : elf_addr → CString) : OptionType → elf_addr → Prop
  | .STR, a_val => m.Holds a_val (string a_val).bytes ∧ (string a_val).chars.length < 1000
  | .HEX, _ => True
  | .DEC, a_val => a_val ≠ BitVec.intMin 64

/-- The line of an entry of the vector. -/
def option_line (string : elf_addr → CString) (entry : DictionaryEntry) (a_val : elf_addr) : List Byte :=
  entry.msg.chars ++ (CString.lit " : ").chars ++ entry.type.text string a_val ++ [chr '\n']

/-- The directive in the format of a type, and what stands in front of it. -/
def OptionType.directive : OptionType → List Piece × Directive
  | .STR => ([], ⟨[], .absent, none, none, some (chr 's')⟩)
  | .HEX => ([.char (chr '0'), .char (chr 'x')], ⟨[], .absent, none, some (chr 'l'), some (chr 'x')⟩)
  | .DEC => ([], ⟨[], .absent, none, some (chr 'l'), some (chr 'd')⟩)

theorem option_format_pieces (type : OptionType) : pieces type.format =
    [.directive ⟨[], .absent, none, none, some (chr 's')⟩, .char (chr ' '), .char (chr ':'), .char (chr ' ')] ++
      type.directive.1 ++ [.directive type.directive.2, .char (chr '\n')] := by
  cases type <;> decide

theorem option_format_text {entry : DictionaryEntry} {p v : elf_addr} (hmsg : m.Holds p entry.msg.bytes)
    (hlength : entry.msg.chars.length < 2 ^ 31) (hvalue : entry.type.Printable m string v) :
    format_text m entry.type.format [p, v] = .ok (option_line string entry v) := by
  have hcolon : (CString.lit " : ").chars = [chr ' ', chr ':', chr ' '] := rfl
  have hwidth : width_value (([] : List Byte).foldl add_flag 0#32) .absent [v] = .ok (-1, 0#32, [v]) := rfl
  rw [format_text, option_format_pieces, option_line]
  cases htype : entry.type with
  | STR =>
    rw [htype] at hvalue
    simp [OptionType.directive, pieces_text, Piece.text, string_text hmsg hlength,
      string_text hvalue.1 (hvalue.2.trans (by decide)), OptionType.text, hcolon]
  | HEX =>
    have hinteger : integer_format (chr 'x') 0#32 = some (((16 : Nat) : Int), SMALL) := by decide
    have hsign : has SMALL SIGN = false := rfl
    have hmark : (CString.lit "0x").chars = [chr '0', chr 'x'] := rfl
    have hlong : Directive.text m ⟨[], .absent, none, some (chr 'l'), some (chr 'x')⟩ [v] =
        .ok (number_text v 16 (-1) (-1) SMALL, []) := long_text hwidth hinteger (by decide) (by simp [hsign])
    simp [OptionType.directive, pieces_text, Piece.text, string_text hmsg hlength, hlong, OptionType.text, hcolon, hmark]
  | DEC =>
    rw [htype] at hvalue
    have hinteger : integer_format (chr 'd') 0#32 = some (((10 : Nat) : Int), SIGN) := by decide
    have hlong : Directive.text m ⟨[], .absent, none, some (chr 'l'), some (chr 'd')⟩ [v] =
        .ok (number_text v 10 (-1) (-1) SIGN, []) := long_text hwidth hinteger (by decide) fun _ => hvalue
    simp [OptionType.directive, pieces_text, Piece.text, string_text hmsg hlength, hlong, OptionType.text, hcolon]

/-- Without a width, a number takes no more than a sign and 64 digits. -/
theorem number_text_length_le {num : BitVec 64} {base : Nat} {type : BitVec 32} (hbase : 2 ≤ base)
    (hspecial : has type SPECIAL = false) : (number_text num base (-1) (-1) type).length ≤ 65 := by
  have hdigits : (digit_tmp (magnitude num type) base type).length ≤ 64 := digit_tmp_length_le hbase (magnitude_lt num type)
  have hsign : (sign_text num type).length ≤ 1 := by
    unfold sign_text
    split_ifs <;> simp
  have hmark : base_text base type = [] := by simp [base_text, hspecial]
  rw [number_text_length, hmark, digit_text_eq, List.length_reverse]
  simp
  omega

theorem option_line_length {entry : DictionaryEntry} {v : elf_addr} (hmsg : entry.msg.chars.length ≤ 20)
    (hvalue : entry.type.Printable m string v) : (option_line string entry v).length < 1024 := by
  have hcolon : (CString.lit " : ").chars.length = 3 := rfl
  have htext : (entry.type.text string v).length < 1000 := by
    cases htype : entry.type with
    | STR =>
      rw [htype] at hvalue
      exact hvalue.2
    | HEX =>
      have hlength : (number_text v 16 (-1) (-1) SMALL).length ≤ 65 := number_text_length_le (by decide) rfl
      have hmark : (CString.lit "0x").chars.length = 2 := rfl
      rw [OptionType.text, List.length_append, hmark]
      omega
    | DEC =>
      have hlength : (number_text v 10 (-1) (-1) SIGN).length ≤ 65 := number_text_length_le (by decide) rfl
      rw [OptionType.text]
      omega
  simp only [option_line, List.length_append, hcolon, List.length_singleton]
  omega

theorem not_mem_option_line (entry : DictionaryEntry) (v : elf_addr) : 0#8 ∉ option_line string entry v := by
  have htext : 0#8 ∉ entry.type.text string v := by
    cases entry.type with
    | STR => exact (string v).nonul
    | HEX =>
      rw [OptionType.text, List.mem_append, not_or]
      exact ⟨(CString.lit "0x").nonul, not_mem_number_text (by decide) (by decide) (by decide) (by decide)⟩
    | DEC => exact not_mem_number_text (by decide) (by decide) (by decide) (by decide)
  simp only [option_line, List.mem_append, not_or]
  exact ⟨⟨⟨entry.msg.nonul, (CString.lit " : ").nonul⟩, htext⟩, by decide⟩

end Auxv

section Read

/-- Text cut behind its line ends, which are dropped. -/
def lines (text : List Byte) : List (List Byte) := (text.splitOn (chr '\n')).dropLast

/-- A name and an address, as they stand on a line between a tab, " (0x" and ")". -/
def read_line (line : List Byte) : List Byte × Int :=
  (line.tail.take (line.length - 22), read_number 16 ((line.tail.drop (line.length - 18)).take 16))

/-- What is printed about a node says which node it is. -/
theorem read_line_trace_text (name : CString) (l_ld : elf_addr) :
    read_line (trace_text name l_ld) = (name.chars, (l_ld.toNat : Int)) := by
  have hopen : (CString.lit " (0x").chars.length = 4 := rfl
  have haddress := address_text_length l_ld
  have htail : (trace_text name l_ld).tail = name.chars ++ ((CString.lit " (0x").chars ++ (address_text l_ld ++ [chr ')'])) := by
    simp [trace_text]
  have hname : (trace_text name l_ld).tail.take name.chars.length = name.chars := by rw [htail, List.take_left]
  have hdigits : ((trace_text name l_ld).tail.drop (name.chars.length + 4)).take 16 = address_text l_ld := by
    rw [htail, ← List.drop_drop, List.drop_left, ← hopen, List.drop_left, ← haddress, List.take_left]
  rw [read_line, trace_text_length, Nat.add_sub_cancel, hname, show name.chars.length + 22 - 18 = name.chars.length + 4 by omega,
    hdigits, read_address_text]

theorem splitOn_lines {ls : List (List Byte)} (h : ∀ l ∈ ls, chr '\n' ∉ l) :
    (ls.flatMap (· ++ [chr '\n'])).splitOn (chr '\n') = ls ++ [[]] := by
  induction ls with
  | nil => rfl
  | cons l ls ih =>
    have hl : chr '\n' ∉ l := h l (by simp)
    rw [List.flatMap_cons, List.append_assoc, List.singleton_append, List.splitOn_append_cons_self_of_not_mem hl,
      ih fun l hl => h l (by simp [hl]), List.cons_append]

theorem lines_flatMap {ls : List (List Byte)} (h : ∀ l ∈ ls, chr '\n' ∉ l) : lines (ls.flatMap (· ++ [chr '\n'])) = ls := by
  rw [lines, splitOn_lines h, List.dropLast_concat]

end Read

end ldso.options
