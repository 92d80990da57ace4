import LdSo.Libc.Printf.Vsprintf

open cmodel

namespace ldso.stdio

section Sprintf

/-- `sprintf` leaves in its buffer, as a string, the text that the format and its
arguments stand for, returns the length and writes nothing else. -/
theorem sprintf_writes_format {m : Memory 64} {buf fmt : BitVec 64} {room fuel : Nat} {format : CString} {args : va_list}
    {text : List Byte} (hbuf : Buffer m buf room) (hfmt : (outside m buf room).Holds fmt format.bytes)
    (hfuel : format.chars.length < fuel) (htext : format_text (outside m buf room) format args = .ok text)
    (hroom : text.length < room) :
    ∃ m', sprintf fuel m buf fmt args = .ok (m', text.length) ∧ m'.Holds buf (text ++ [0#8]) ∧
      outside m' buf (text.length + 1) = outside m buf (text.length + 1) ∧ ∀ a, m'.protection a = m.protection a := by
  have hfits := hbuf.fits
  have hlength : (text ++ [0#8]).length = text.length + 1 := by simp
  refine ⟨m.put buf (text ++ [0#8]), vsprintf_writes_format hbuf hfmt hfuel htext hroom, ?_, ?_, ?_⟩
  · have hle : (text ++ [0#8]).length ≤ room := hlength ▸ hroom
    exact Memory.load_put_same (by omega) fun i hi => hbuf.writable i (Nat.lt_of_lt_of_le hi hle)
  · exact Memory.hide_put (by simp)
  · exact fun a => Memory.protection_put m buf a _

/-- A format and a string, behind which a buffer lies. -/
def greeting_memory : Memory 64 :=
  ((Memory.put (fun _ => some ⟨0, ⟨true, true, false⟩⟩) 0x1000 (CString.lit "%s %#06x %-4d|").bytes).put 0x1100
    (CString.lit "at").bytes)

theorem sprintf_writes_greeting :
    ∃ m', sprintf 20 greeting_memory 0x1200 0x1000 [0x1100#64, 0x2a#64, -7#64] = .ok (m', 15) ∧
      m'.Holds 0x1200 (CString.lit "at 0x002a -7  |").bytes ∧
      outside m' 0x1200 16 = outside greeting_memory 0x1200 16 ∧ ∀ a, m'.protection a = greeting_memory.protection a := by
  have hbuf : Buffer greeting_memory 0x1200 64 := by
    refine ⟨fun i _ => ?_, by decide⟩
    rw [greeting_memory, Memory.writable_put, Memory.writable_put]
    exact ⟨_, rfl, rfl⟩
  exact @sprintf_writes_format _ _ _ _ _ (.lit "%s %#06x %-4d|") _ (CString.lit "at 0x002a -7  |").chars hbuf
    (by decide +kernel) (by decide) (by decide +kernel) (by decide)

end Sprintf

section Printf

variable {m : Memory 64} {printf_buf fmt : BitVec 64} {room fuel : Nat} {format : CString} {args : va_list}
  {text : List Byte}

/-- The scan stops at the first NUL. -/
theorem strlen_eq {s : BitVec 64} {rest : List Byte} (h : m.Holds s (text ++ 0#8 :: rest)) (hnonul : 0#8 ∉ text)
    (hfuel : text.length < fuel) : strlen m fuel s = .ok text.length := by
  induction text generalizing s fuel with
  | nil =>
    cases fuel with
    | zero => cases hfuel
    | succ fuel =>
      rw [strlen, (Memory.holds_cons.mp h).1]
      rfl
  | cons c text ih =>
    cases fuel with
    | zero => cases hfuel
    | succ fuel =>
      rw [List.mem_cons, not_or] at hnonul
      obtain ⟨hbyte, hrest⟩ := Memory.holds_cons.mp h
      rw [strlen, hbyte, Outcome.ofOption_some, Outcome.ok_bind, if_neg (Ne.symm hnonul.1),
        ih hrest hnonul.2 (Nat.lt_of_succ_lt_succ hfuel)]
      rfl

/-- A text and its terminator are cut at the first NUL of the text, or at the terminator. -/
theorem terminated_split (text : List Byte) :
    ∃ rest, text ++ [0#8] = text.takeWhile (· ≠ 0#8) ++ 0#8 :: rest ∧ 0#8 ∉ text.takeWhile (· ≠ 0#8) := by
  have hnonul : 0#8 ∉ text.takeWhile (· ≠ 0#8) := fun h => by simpa using List.mem_takeWhile_imp h
  induction text with
  | nil => exact ⟨[], rfl, hnonul⟩
  | cons c text ih =>
    by_cases hc : c = 0#8
    · exact ⟨text ++ [0#8], by simp [hc], hnonul⟩
    · rw [List.takeWhile_cons_of_pos (by simpa using hc)] at hnonul ⊢
      obtain ⟨rest, hrest, -⟩ := ih fun h => hnonul (List.mem_cons_of_mem c h)
      exact ⟨rest, by rw [List.cons_append, hrest, List.cons_append], hnonul⟩

/-- `printf` prints the text of its format up to the first NUL, and returns the length of
the whole text. It writes its buffer, and as much behind it as the text needs. -/
theorem printf_prints_format (hbuf : Buffer m printf_buf room)
    (hfmt : (outside m printf_buf room).Holds fmt format.bytes) (hfuel : format.chars.length < fuel)
    (htext : format_text (outside m printf_buf room) format args = .ok text) (hroom : text.length < room) :
    printf fuel m printf_buf fmt args =
      .ok (m.put printf_buf (text ++ [0#8]), text.takeWhile (· ≠ 0#8), text.length) := by
  have hfits := hbuf.fits
  have hlength : (text ++ [0#8]).length ≤ room := by simpa using hroom
  have hholds : (m.put printf_buf (text ++ [0#8])).Holds printf_buf (text ++ [0#8]) :=
    Memory.load_put_same (by omega) fun i hi => hbuf.writable i (Nat.lt_of_lt_of_le hi hlength)
  obtain ⟨rest, hsplit, hnonul⟩ := terminated_split text
  have hfront : (text.takeWhile (· ≠ 0#8)).length ≤ text.length := (List.takeWhile_prefix _).length_le
  have hcut : (m.put printf_buf (text ++ [0#8])).Holds printf_buf (text.takeWhile (· ≠ 0#8) ++ 0#8 :: rest) := by
    rw [← hsplit]
    exact hholds
  have hlen := strlen_eq hcut hnonul (show (text.takeWhile (· ≠ 0#8)).length < 2 ^ 64 by omega)
  have hload := (Memory.holds_append.mp hcut).1
  rw [printf, vsprintf_writes_format hbuf hfmt hfuel htext hroom]
  simp only [Outcome.ok_bind, hlen]
  rw [hload, Outcome.ofOption_some]
  rfl

end Printf

/-- The memory of a process, and what it has printed. -/
structure Console where
  mem : Memory 64
  output : List Byte

/-- A call of `printf` whose result is not looked at. -/
def Console.printf (out : Console) (printf_buf fmt : BitVec 64) (args : va_list) : Outcome Console := do
  let (m, printed, _) ← stdio.printf (2 ^ 64) out.mem printf_buf fmt args
  return ⟨m, out.output ++ printed⟩

/-- Since the memory was `m`, only the buffer of `printf` was written. -/
structure Console.Since (m : Memory 64) (printf_buf : BitVec 64) (room : Nat) (out : Console) : Prop where
  buffer : Buffer out.mem printf_buf room
  outside_eq : outside out.mem printf_buf room = outside m printf_buf room

namespace Console.Since

variable {m : Memory 64} {printf_buf fmt : BitVec 64} {room : Nat} {out : Console} {format : CString} {args : va_list}
  {text : List Byte}

theorem refl (output : List Byte) (h : Buffer m printf_buf room) : Since m printf_buf room ⟨m, output⟩ := ⟨h, rfl⟩

/-- What lies outside of the buffer is as it was. -/
theorem sub (h : Since m printf_buf room out) : (outside m printf_buf room).Sub out.mem := by
  rw [← h.outside_eq]
  exact Memory.hide_sub _ _

/-- A `printf` adds its text to the output. -/
theorem printf (h : Since m printf_buf room out) (hfmt : (outside m printf_buf room).Holds fmt format.bytes)
    (hfuel : format.chars.length < 2 ^ 64) (htext : format_text (outside m printf_buf room) format args = .ok text)
    (hnonul : 0#8 ∉ text) (hroom : text.length < room) :
    ∃ out', out.printf printf_buf fmt args = .ok out' ∧ out'.output = out.output ++ text ∧
      Since m printf_buf room out' := by
  rw [← h.outside_eq] at hfmt htext
  have hall : text.takeWhile (· ≠ 0#8) = text := by
    rw [List.takeWhile_eq_self_iff]
    intro c hc
    rw [decide_eq_true_eq]
    rintro rfl
    exact hnonul hc
  have hprint := printf_prints_format h.buffer hfmt hfuel htext hroom
  rw [hall] at hprint
  refine ⟨⟨out.mem.put printf_buf (text ++ [0#8]), out.output ++ text⟩, by rw [Console.printf, hprint]; rfl, rfl, ?_, ?_⟩
  · exact ⟨Memory.writableRegion_put.mpr h.buffer.writable, h.buffer.fits⟩
  · refine Eq.trans ?_ h.outside_eq
    funext x
    dsimp only
    unfold outside Memory.hide
    split
    · rfl
    · next hnot =>
      refine Memory.put_of_not_contains fun hx => hnot ⟨_, List.mem_singleton_self _, ?_⟩
      exact Nat.lt_of_lt_of_le hx (by simpa using hroom)

/-- Two formats one behind the other print what the one made of them prints, the second
one with the arguments that the first one leaves, unless the first ends in a directive
without a conversion character. -/
theorem printf_append {more : CString} {fmt_more fmt_both : BitVec 64} {args' : va_list} {rest : List Byte}
    (h : Since m printf_buf room out) (hfmt : (outside m printf_buf room).Holds fmt format.bytes)
    (hmore : (outside m printf_buf room).Holds fmt_more more.bytes)
    (hboth : (outside m printf_buf room).Holds fmt_both (format.append more).bytes)
    (hlength : format.chars.length + more.chars.length < 2 ^ 64) (hcomplete : Complete format)
    (htext : pieces_text (outside m printf_buf room) (pieces format) args = .ok (text, args'))
    (hrest : format_text (outside m printf_buf room) more args' = .ok rest) (hnonul : 0#8 ∉ text ++ rest)
    (hroom : (text ++ rest).length < room) :
    ∃ out₁ out₂ out', out.printf printf_buf fmt args = .ok out₁ ∧ out₁.printf printf_buf fmt_more args' = .ok out₂ ∧
      out.printf printf_buf fmt_both args = .ok out' ∧ out₂.output = out.output ++ (text ++ rest) ∧
      out'.output = out₂.output := by
  have hfirst : format_text (outside m printf_buf room) format args = .ok text := by
    rw [format_text, htext]
    rfl
  obtain ⟨⟨_, args''⟩, hpieces, hpure⟩ := Outcome.bind_eq_ok_iff.mp hrest
  cases hpure
  have hall : format_text (outside m printf_buf room) (format.append more) args = .ok (text ++ rest) := by
    rw [format_text, pieces_append hcomplete, pieces_text_append, htext, Outcome.ok_bind, hpieces]
    rfl
  rw [List.mem_append, not_or] at hnonul
  have hfront : text.length < room ∧ rest.length < room := by
    rw [List.length_append] at hroom
    omega
  obtain ⟨out₁, hout₁, houtput₁, hsince⟩ := h.printf hfmt (by omega) hfirst hnonul.1 hfront.1
  obtain ⟨out₂, hout₂, houtput₂, -⟩ := hsince.printf hmore (by omega) hrest hnonul.2 hfront.2
  obtain ⟨out', hout', houtput', -⟩ := h.printf hboth (by simpa using hlength) hall
    (by rw [List.mem_append, not_or]; exact hnonul) hroom
  refine ⟨out₁, out₂, out', hout₁, hout₂, hout', ?_, ?_⟩
  · rw [houtput₂, houtput₁, List.append_assoc]
  · rw [houtput', houtput₂, houtput₁, List.append_assoc]

/-- Two formats, what they are together, and a buffer behind them. -/
def two_formats_memory : Memory 64 :=
  (((Memory.put (fun _ => some ⟨0, ⟨true, true, false⟩⟩) 0x1000 (CString.lit "%c=%u").bytes).put 0x1100
    (CString.lit ",%o").bytes).put 0x1200 (CString.lit "%c=%u,%o").bytes)

theorem printf_append_two : ∃ out₁ out₂ out',
    Console.printf ⟨two_formats_memory, []⟩ 0x1300 0x1000 [0x78#64, 5#64, 8#64] = .ok out₁ ∧
      out₁.printf 0x1300 0x1100 [8#64] = .ok out₂ ∧
      Console.printf ⟨two_formats_memory, []⟩ 0x1300 0x1200 [0x78#64, 5#64, 8#64] = .ok out' ∧
      out₂.output = [] ++ ((CString.lit "x=5").chars ++ (CString.lit ",10").chars) ∧ out'.output = out₂.output := by
  have hbuf : Buffer two_formats_memory 0x1300 64 := by
    refine ⟨fun i _ => ?_, by decide⟩
    rw [two_formats_memory, Memory.writable_put, Memory.writable_put, Memory.writable_put]
    exact ⟨_, rfl, rfl⟩
  have hcomplete : Complete (.lit "%c=%u") := by
    have hpieces : pieces (.lit "%c=%u") = [.directive ⟨[], .absent, none, none, some (chr 'c')⟩, .char (chr '='),
        .directive ⟨[], .absent, none, none, some (chr 'u')⟩] := by decide
    intro d hd
    rw [hpieces] at hd
    simp at hd
    obtain rfl | rfl := hd <;> rfl
  exact @printf_append _ _ _ _ _ (.lit "%c=%u") _ _ (.lit ",%o") _ _ _ _ (.refl [] hbuf) (by decide +kernel)
    (by decide +kernel) (by decide +kernel) (by decide) hcomplete (by decide +kernel) (by decide +kernel) (by decide) (by decide)

end Console.Since

end ldso.stdio
