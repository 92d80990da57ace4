import LdSo.Libc.Printf.Number

open cmodel

namespace ldso.stdio

/-- A width or a precision as the format spells it. -/
inductive Count where
  | absent
  | star
  | digits (ds : List Byte)
  deriving DecidableEq

/-- What a '%' begins. There is no conversion character at the end of the format. -/
structure Directive where
  flags : List Byte
  width : Count
  precision : Option Count
  qualifier : Option Byte
  conv : Option Byte
  deriving DecidableEq

/-- A format is made of characters and directives. -/
inductive Piece where
  | char (c : Byte)
  | directive (d : Directive)
  deriving DecidableEq

section Read

def is_flag (c : Byte) : Bool := (flag c).isSome

def is_qualifier (c : Byte) : Bool := c = chr 'h' ∨ c = chr 'l' ∨ c = chr 'L'

def Count.read : List Byte → Count × List Byte
  | [] => (.absent, [])
  | c :: fmt =>
    if isdigit c then (.digits ((c :: fmt).takeWhile isdigit), (c :: fmt).dropWhile isdigit)
    else if c = chr '*' then (.star, fmt)
    else (.absent, c :: fmt)

def read_precision : List Byte → Option Count × List Byte
  | [] => (none, [])
  | c :: fmt => if c = chr '.' then (some (Count.read fmt).1, (Count.read fmt).2) else (none, c :: fmt)

def read_qualifier : List Byte → Option Byte × List Byte
  | [] => (none, [])
  | c :: fmt => if is_qualifier c then (some c, fmt) else (none, c :: fmt)

/-- The directive behind a '%', and the rest of the format. -/
def Directive.read (fmt : List Byte) : Directive × List Byte :=
  let width := Count.read (fmt.dropWhile is_flag)
  let precision := read_precision width.2
  let qualifier := read_qualifier precision.2
  (⟨fmt.takeWhile is_flag, width.1, precision.1, qualifier.1, qualifier.2.head?⟩, qualifier.2.tail)

theorem Count.read_length_le (fmt : List Byte) : (Count.read fmt).2.length ≤ fmt.length := by
  cases fmt with
  | nil => rfl
  | cons c fmt =>
    rw [Count.read]
    split
    · exact (List.dropWhile_suffix isdigit).length_le
    · split
      · exact Nat.le_succ _
      · exact Nat.le_refl _

theorem read_precision_length_le (fmt : List Byte) : (read_precision fmt).2.length ≤ fmt.length := by
  cases fmt with
  | nil => rfl
  | cons c fmt =>
    rw [read_precision]
    split
    · exact (Count.read_length_le fmt).trans (Nat.le_succ _)
    · exact Nat.le_refl _

theorem read_qualifier_length_le (fmt : List Byte) : (read_qualifier fmt).2.length ≤ fmt.length := by
  cases fmt with
  | nil => rfl
  | cons c fmt =>
    rw [read_qualifier]
    split
    · exact Nat.le_succ _
    · exact Nat.le_refl _

theorem Directive.read_length_le (fmt : List Byte) : (Directive.read fmt).2.length ≤ fmt.length := by
  have hflags : (fmt.dropWhile is_flag).length ≤ fmt.length := (List.dropWhile_suffix is_flag).length_le
  have hwidth := Count.read_length_le (fmt.dropWhile is_flag)
  have hprecision := read_precision_length_le (Count.read (fmt.dropWhile is_flag)).2
  have hqualifier := read_qualifier_length_le (read_precision (Count.read (fmt.dropWhile is_flag)).2).2
  rw [Directive.read, List.length_tail]
  omega

/-- The pieces of a format, of at most `n` characters. -/
def read_pieces : Nat → List Byte → List Piece
  | 0, _ => []
  | _ + 1, [] => []
  | n + 1, c :: fmt =>
    if c ≠ chr '%' then .char c :: read_pieces n fmt
    else .directive (Directive.read fmt).1 :: read_pieces n (Directive.read fmt).2

def pieces (fmt : CString) : List Piece := read_pieces fmt.chars.length fmt.chars

end Read

section Append

variable {f g : List Byte}

theorem takeWhile_length_ne {p : Byte → Bool} (h : f.dropWhile p ≠ []) : (f.takeWhile p).length ≠ f.length := by
  intro hall
  have hsplit := congrArg List.length (List.takeWhile_append_dropWhile (p := p) (l := f))
  rw [List.length_append, hall] at hsplit
  exact h (List.eq_nil_of_length_eq_zero (by omega))

/-- What is read before the end of a format does not depend on what stands behind it. -/
theorem Count.read_append (h : (Count.read f).2 ≠ []) :
    Count.read (f ++ g) = ((Count.read f).1, (Count.read f).2 ++ g) := by
  cases f with
  | nil => exact absurd rfl h
  | cons c f =>
    rw [Count.read] at h
    rw [List.cons_append, Count.read, Count.read]
    by_cases hdigit : isdigit c = true
    · rw [if_pos hdigit] at h
      rw [if_pos hdigit, if_pos hdigit, ← List.cons_append, List.takeWhile_append, if_neg (takeWhile_length_ne h),
        List.dropWhile_append,
        if_neg (by simpa using h)]
    · rw [if_neg hdigit] at h
      rw [if_neg hdigit, if_neg hdigit]
      split <;> rfl

theorem read_precision_append (h : (read_precision f).2 ≠ []) :
    read_precision (f ++ g) = ((read_precision f).1, (read_precision f).2 ++ g) := by
  cases f with
  | nil => exact absurd rfl h
  | cons c f =>
    rw [read_precision] at h
    rw [List.cons_append, read_precision, read_precision]
    by_cases hdot : c = chr '.'
    · rw [if_pos hdot] at h
      rw [if_pos hdot, if_pos hdot, Count.read_append h]
    · rw [if_neg hdot, if_neg hdot]
      rfl

theorem read_qualifier_append (h : (read_qualifier f).2 ≠ []) :
    read_qualifier (f ++ g) = ((read_qualifier f).1, (read_qualifier f).2 ++ g) := by
  cases f with
  | nil => exact absurd rfl h
  | cons c f =>
    rw [List.cons_append, read_qualifier, read_qualifier]
    split <;> rfl

/-- A directive with a conversion character ends there. -/
theorem Directive.read_append (h : (Directive.read f).1.conv.isSome) :
    Directive.read (f ++ g) = ((Directive.read f).1, (Directive.read f).2 ++ g) := by
  have hqualifier : (read_qualifier (read_precision (Count.read (f.dropWhile is_flag)).2).2).2 ≠ [] := by
    intro hnil
    have hconv : (Directive.read f).1.conv = none := by rw [Directive.read, hnil, List.head?_nil]
    rw [hconv] at h
    cases h
  have hprecision : (read_precision (Count.read (f.dropWhile is_flag)).2).2 ≠ [] := by
    intro hnil
    rw [hnil] at hqualifier
    exact hqualifier rfl
  have hwidth : (Count.read (f.dropWhile is_flag)).2 ≠ [] := by
    intro hnil
    rw [hnil] at hprecision
    exact hprecision rfl
  have hflags : f.dropWhile is_flag ≠ [] := by
    intro hnil
    rw [hnil] at hwidth
    exact hwidth rfl
  simp only [Directive.read, List.takeWhile_append, if_neg (takeWhile_length_ne hflags), List.dropWhile_append, List.isEmpty_iff, if_neg hflags,
    Count.read_append hwidth, read_precision_append hprecision, read_qualifier_append hqualifier]
  obtain ⟨c, rest, hrest⟩ := List.exists_cons_of_ne_nil hqualifier
  rw [hrest]
  rfl

/-- The number of characters is enough. -/
theorem read_pieces_eq {n k : Nat} (hn : f.length ≤ n) (hk : f.length ≤ k) : read_pieces n f = read_pieces k f := by
  induction n generalizing k f with
  | zero =>
    obtain rfl : f = [] := List.eq_nil_of_length_eq_zero (Nat.le_zero.mp hn)
    cases k <;> rfl
  | succ n ih =>
    cases f with
    | nil => cases k <;> rfl
    | cons c f =>
      cases k with
      | zero => cases hk
      | succ k =>
        rw [List.length_cons] at hn hk
        have hlength := Directive.read_length_le f
        rw [read_pieces, read_pieces]
        split
        · rw [ih (by omega) (Nat.le_of_succ_le_succ hk)]
        · rw [ih (by omega) (hlength.trans (Nat.le_of_succ_le_succ hk))]

theorem read_pieces_append {n k : Nat} (hn : f.length ≤ n) (hk : f.length + g.length ≤ k)
    (h : ∀ d, .directive d ∈ read_pieces n f → d.conv.isSome) :
    read_pieces k (f ++ g) = read_pieces n f ++ read_pieces g.length g := by
  induction n generalizing k f with
  | zero =>
    obtain rfl : f = [] := List.eq_nil_of_length_eq_zero (Nat.le_zero.mp hn)
    exact read_pieces_eq (by simpa using hk) (Nat.le_refl _)
  | succ n ih =>
    cases f with
    | nil => exact read_pieces_eq (by simpa using hk) (Nat.le_refl _)
    | cons c f =>
      rw [List.length_cons] at hn hk
      obtain ⟨k, rfl⟩ : ∃ k', k = k' + 1 := ⟨k - 1, by omega⟩
      have hlength := Directive.read_length_le f
      rw [read_pieces] at h
      rw [List.cons_append, read_pieces, read_pieces]
      split at h
      · next hc =>
        rw [if_pos hc, if_pos hc, ih (by omega) (by omega) fun d hd => h d (List.mem_cons_of_mem _ hd)]
        rfl
      · next hc =>
        rw [if_neg hc, if_neg hc, Directive.read_append (h _ List.mem_cons_self),
          ih (by omega) (by omega) fun d hd => h d (List.mem_cons_of_mem _ hd)]
        rfl

/-- No directive is cut off by the end of the format. -/
def Complete (fmt : CString) : Prop := ∀ d, .directive d ∈ pieces fmt → d.conv.isSome

/-- Behind a complete format the pieces of another one follow. -/
theorem pieces_append {fmt more : CString} (h : Complete fmt) : pieces (fmt.append more) = pieces fmt ++ pieces more :=
  read_pieces_append (Nat.le_refl _) (by simp) h

end Append

section Text

def add_flag (flags : BitVec 32) (c : Byte) : BitVec 32 := flags ||| (flag c).getD 0#32

def add_digit (i : Int) (c : Byte) : Int := i * 10 + c.toNat - 48

/-- The number that some digits stand for. -/
def digits_value (ds : List Byte) : Int := ds.foldl add_digit 0

/-- The number of a width or a precision, -1 without one. Digits must keep clear of the
largest `int`, because a character is added before '0' is subtracted. -/
def Count.value : Count → va_list → Outcome (Int × va_list)
  | .absent, args => .ok (-1, args)
  | .star, args => do
    let (arg, args) ← va_arg args
    return (va_int arg, args)
  | .digits ds, args => if digits_value ds < 2 ^ 31 - 48 then .ok (digits_value ds, args) else .fault

/-- The width, with the flags; a negative width from an argument means the flag '-'. -/
def width_value (flags : BitVec 32) (width : Count) (args : va_list) : Outcome (Int × BitVec 32 × va_list) := do
  let (field_width, args) ← width.value args
  if width = .star ∧ field_width < 0 then
    if field_width = -2 ^ 31 then .fault else return (-field_width, flags ||| LEFT, args)
  else return (field_width, flags, args)

def precision_value (precision : Option Count) (args : va_list) : Outcome (Int × va_list) :=
  match precision with
  | none => .ok (-1, args)
  | some count => do
    let (precision, args) ← count.value args
    return (max precision 0, args)

/-- The spaces in front of a text in its field. -/
def pad_before (v : Conversion) (len : Int) : List Byte :=
  List.replicate (if has v.flags LEFT then 0 else (v.field_width - len).toNat) (chr ' ')

def pad_behind (v : Conversion) (len : Int) : List Byte :=
  List.replicate (if has v.flags LEFT then (v.field_width - len).toNat else 0) (chr ' ')

def padded (v : Conversion) (text : List Byte) : List Byte :=
  pad_before v text.length ++ text ++ pad_behind v text.length

/-- The text of a number, when the arithmetic on its width does not overflow. -/
def integer_text (num : BitVec 64) (base : Nat) (size precision : Int) (type : BitVec 32) : Outcome (List Byte) :=
  if precision < 2 ^ 31 - 8 ∧ (has type SIGN = true → num ≠ BitVec.intMin 64) then
    .ok (number_text num base size precision type)
  else .fault

/-- What a conversion is replaced by. Strings are read from `m`; what `%n` stores is
not a matter of text. -/
def Conversion.text (m : Memory 64) (v : Conversion) (conv : Option Byte) (args : va_list) :
    Outcome (List Byte × va_list) :=
  match conv with
  | none => .ok ([chr '%'], args)
  | some c =>
    if c = chr 'c' then do
      let (arg, args) ← va_arg args
      return (padded v [arg.setWidth 8], args)
    else if c = chr 's' then do
      let (s, args) ← va_arg args
      let text ← Outcome.ofOption (m.text (BitVec.ofInt 64 v.precision).toNat s)
      if text.length < 2 ^ 31 then return (padded v text, args) else .fault
    else if c = chr 'p' then do
      let (arg, args) ← va_arg args
      let text ← integer_text arg 16 (if v.field_width = -1 then 16 else v.field_width) v.precision
        (if v.field_width = -1 then v.flags ||| ZEROPAD else v.flags)
      return (text, args)
    else if c = chr 'n' then .fault
    else if c = chr '%' then .ok ([chr '%'], args)
    else
      match integer_format c v.flags with
      | some (base, flags) => do
        let (arg, args) ← va_arg args
        let text ← integer_text (integer_arg arg v.qualifier flags) base.toNat v.field_width v.precision flags
        return (text, args)
      | none => .ok ([chr '%', c], args)

def Directive.text (m : Memory 64) (d : Directive) (args : va_list) : Outcome (List Byte × va_list) := do
  let (field_width, flags, args) ← width_value (d.flags.foldl add_flag 0#32) d.width args
  let (precision, args) ← precision_value d.precision args
  Conversion.text m ⟨flags, field_width, precision, d.qualifier⟩ d.conv args

/-- A piece takes its arguments from those that are left. -/
def Piece.text (m : Memory 64) : Piece → va_list → Outcome (List Byte × va_list)
  | .char c, args => .ok ([c], args)
  | .directive d, args => d.text m args

/-- The text of some pieces, one behind the other, and the arguments they leave. -/
def pieces_text (m : Memory 64) : List Piece → va_list → Outcome (List Byte × va_list)
  | [], args => .ok ([], args)
  | p :: ps, args => do
    let (text, args) ← p.text m args
    let (rest, args) ← pieces_text m ps args
    return (text ++ rest, args)

/-- The arguments that some pieces leave are those of the pieces behind them. -/
theorem pieces_text_append (m : Memory 64) (ps qs : List Piece) (args : va_list) :
    pieces_text m (ps ++ qs) args = pieces_text m ps args >>= fun front =>
      pieces_text m qs front.2 >>= fun back => .ok (front.1 ++ back.1, back.2) := by
  induction ps generalizing args with
  | nil =>
    rw [List.nil_append, pieces_text, Outcome.ok_bind]
    simp only [List.nil_append]
    exact (bind_pure _).symm
  | cons p ps ih =>
    simp only [List.cons_append, pieces_text, ih, bind_assoc, Outcome.ok_bind, Outcome.pure_eq, List.append_assoc]

/-- What `vsprintf` is for: the text that a format and its arguments stand for. -/
def format_text (m : Memory 64) (fmt : CString) (args : va_list) : Outcome (List Byte) := do
  let (text, _) ← pieces_text m (pieces fmt) args
  return text

end Text

end ldso.stdio
