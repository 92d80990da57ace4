import LdSo.Lib.Bytes

namespace cmodel

/-- A C string: the bytes before its terminator, none of which is NUL. -/
structure CString where
  chars : List Byte
  nonul : 0#8 ∉ chars
  deriving DecidableEq

namespace CString

@[ext] theorem ext {s t : CString} (h : s.chars = t.chars) : s = t := by
  cases s
  cases t
  cases h
  rfl

/-- The bytes a pointer to the string reaches, terminator included. -/
def bytes (s : CString) : List Byte := s.chars ++ [0#8]

/-- The string a literal denotes. A literal is cut at an embedded NUL, as the
compiler's own string functions would cut it. -/
def lit (s : String) : CString where
  chars := (s.toList.map fun c => BitVec.ofNat 8 c.toNat).takeWhile (· ≠ 0#8)
  nonul := by
    intro hmem
    simpa using List.mem_takeWhile_imp hmem

/-- Concatenation. -/
def append (s t : CString) : CString where
  chars := s.chars ++ t.chars
  nonul := by
    simp [s.nonul, t.nonul]

/-- The string with its first `n` bytes removed. -/
def drop (s : CString) (n : Nat) : CString where
  chars := s.chars.drop n
  nonul := fun hmem => s.nonul (List.mem_of_mem_drop hmem)

@[simp] theorem append_chars (s t : CString) : (s.append t).chars = s.chars ++ t.chars := rfl

@[simp] theorem drop_chars (s : CString) (n : Nat) : (s.drop n).chars = s.chars.drop n := rfl

/-- The string at byte offset `off` of a buffer; undefined when the buffer
ends before a terminator is found. -/
def read (buf : List Byte) (off : Nat) : Outcome CString :=
  if 0#8 ∈ buf.drop off then
    .ok ⟨(buf.drop off).takeWhile (· ≠ 0#8), fun hmem => by simpa using List.mem_takeWhile_imp hmem⟩
  else
    .fault

private theorem split_at_nul {bs : List Byte} (hnul : 0#8 ∈ bs) :
    ∃ rest, bs = bs.takeWhile (· ≠ 0#8) ++ 0#8 :: rest := by
  induction bs with
  | nil => cases hnul
  | cons b bs ih =>
    by_cases hb : b = 0#8
    · exact ⟨bs, by simp [hb]⟩
    · obtain ⟨rest, hrest⟩ := ih (by simpa [Ne.symm hb] using hnul)
      refine ⟨rest, ?_⟩
      rw [List.takeWhile_cons_of_pos (by simpa using hb), List.cons_append, ← hrest]

private theorem takeWhile_terminated (s : CString) (rest : List Byte) :
    (s.chars ++ 0#8 :: rest).takeWhile (· ≠ 0#8) = s.chars := by
  rw [List.takeWhile_append_of_pos]
  · simp
  · intro b hb
    rw [decide_eq_true_eq]
    rintro rfl
    exact s.nonul hb

/-- A string either has no byte of a set, or is cut at its first one. -/
theorem split_first (s : CString) (p : Byte → Prop) [DecidablePred p] : (∀ c ∈ s.chars, ¬ p c) ∨
    ∃ (front : CString) (sep : Byte) (rest : CString), s.chars = front.chars ++ sep :: rest.chars ∧
      (∀ c ∈ front.chars, ¬ p c) ∧ p sep := by
  obtain ⟨chars, hnonul⟩ := s
  induction chars with
  | nil => exact .inl (by simp)
  | cons c chars ih =>
    have htail : 0#8 ∉ chars := fun hmem => hnonul (List.mem_cons_of_mem c hmem)
    by_cases hc : p c
    · exact .inr ⟨⟨[], by simp⟩, c, ⟨chars, htail⟩, rfl, by simp, hc⟩
    · obtain hclean | ⟨front, sep, rest, hsplit, hfront, hsep⟩ := ih htail
      · exact .inl (by simpa [hc] using hclean)
      · refine .inr ⟨⟨c :: front.chars, ?_⟩, sep, rest, by simpa using hsplit, by simpa [hc] using hfront, hsep⟩
        rw [List.mem_cons, not_or]
        exact ⟨fun h => hnonul (by simp [h]), front.nonul⟩

/-- Reading a string succeeds exactly on its bytes followed by a terminator;
what stands behind the terminator is not looked at. -/
theorem read_eq_ok_iff {buf : List Byte} {off : Nat} {s : CString} :
    read buf off = .ok s ↔ ∃ rest, buf.drop off = s.chars ++ 0#8 :: rest := by
  constructor
  · intro hread
    unfold read at hread
    split at hread
    · next hnul =>
      obtain ⟨rest, hrest⟩ := split_at_nul hnul
      injection hread with heq
      subst heq
      exact ⟨rest, hrest⟩
    · cases hread
  · rintro ⟨rest, hrest⟩
    unfold read
    rw [if_pos (by rw [hrest]; simp)]
    congr 1
    apply ext
    simp only [hrest, takeWhile_terminated]

/-- The first of some zero bytes behind a string is its terminator. -/
theorem bytes_prefix_zeros (s : CString) {k : Nat} (hk : 0 < k) : s.bytes <+: s.chars ++ List.replicate k 0#8 := by
  cases k with
  | zero => omega
  | succ k => exact ⟨List.replicate k 0#8, by rw [bytes, List.append_assoc, List.replicate_succ]; rfl⟩

/-- Up to a length that does not include the terminator, only the characters count. -/
theorem chars_prefix_iff {s t : CString} {rest : List Byte} :
    t.chars <+: s.chars ++ 0#8 :: rest ↔ t.chars <+: s.chars := by
  constructor
  · intro h
    rcases Nat.lt_or_ge s.chars.length t.chars.length with hlt | hle
    · have hterminated : s.bytes <+: s.chars ++ 0#8 :: rest := ⟨rest, by rw [bytes, List.append_assoc]; rfl⟩
      have hinit : s.bytes <+: t.chars :=
        List.prefix_of_prefix_length_le hterminated h (by rw [bytes, List.length_append]; exact hlt)
      exact (t.nonul (hinit.subset (by simp [bytes]))).elim
    · exact List.prefix_of_prefix_length_le h (List.prefix_append _ _) hle
  · exact fun h => h.trans (List.prefix_append _ _)

/-- With the terminator the strings are the same. -/
theorem bytes_prefix_iff {s t : CString} {rest : List Byte} : t.bytes <+: s.chars ++ 0#8 :: rest ↔ t = s := by
  constructor
  · rintro ⟨behind, hbehind⟩
    have ht : read (s.chars ++ 0#8 :: rest) 0 = .ok t :=
      read_eq_ok_iff.mpr ⟨behind, by rw [List.drop_zero, ← hbehind, bytes, List.append_assoc]; rfl⟩
    have hs : read (s.chars ++ 0#8 :: rest) 0 = .ok s := read_eq_ok_iff.mpr ⟨rest, rfl⟩
    exact Outcome.ok.inj (ht.symm.trans hs)
  · rintro rfl
    exact ⟨rest, by rw [bytes, List.append_assoc]; rfl⟩

end CString

end cmodel
