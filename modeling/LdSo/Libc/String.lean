import LdSo.Lib.CString

open cmodel

namespace ldso.string

/-- A `char *` argument is the list of bytes from the pointer to the end of its
buffer, so that a string without a terminator runs into undefined behaviour. -/
def strcmp : List Byte → List Byte → Outcome Int
  | a :: as, b :: bs => if a ≠ 0#8 ∧ a = b then strcmp as bs else .ok (a.toNat - b.toNat)
  | _, _ => .fault

/-- The loop of `strncmp`, entered after its first decrement of `n`. -/
def strncmp_loop : List Byte → List Byte → Nat → Outcome Int
  | l :: ls, r :: rs, n =>
    if l ≠ 0#8 ∧ r ≠ 0#8 ∧ n ≠ 0 ∧ l = r then strncmp_loop ls rs (n - 1) else .ok (l.toNat - r.toNat)
  | _, _, _ => .fault

def strncmp (s1 s2 : List Byte) (n : Nat) : Outcome Int :=
  if n = 0 then .ok 0 else strncmp_loop s1 s2 (n - 1)

def is_in (c : Byte) : List Byte → Outcome Bool
  | [] => .fault
  | d :: str => if d = 0#8 then .ok false else if c = d then .ok true else is_in c str

/-- The loop of `strtok_r`, as the number of bytes that `p` is moved over. -/
def strtok_scan (delim : CString) : List Byte → Outcome Nat
  | [] => .fault
  | c :: p =>
    if c = 0#8 then .ok 0
    else do
      if ← is_in c delim.bytes then return 0 else return (← strtok_scan delim p) + 1

theorem is_in_eq (c : Byte) (str : CString) : is_in c str.bytes = .ok (decide (c ∈ str.chars)) := by
  obtain ⟨chars, hnonul⟩ := str
  simp only [CString.bytes]
  induction chars with
  | nil => rfl
  | cons d chars ih =>
    have hd : d ≠ 0#8 := fun h => hnonul (by simp [h])
    rw [List.cons_append, is_in, if_neg hd, ih fun h => hnonul (by simp [h])]
    by_cases hc : c = d <;> simp [hc]

/-- The loop stops at the first byte that is the terminator or a delimiter; it runs
out of the buffer when there is none. -/
theorem strtok_scan_eq (delim : CString) (p : List Byte) :
    strtok_scan delim p =
      (Outcome.ofOption p[(p.takeWhile fun c => c ≠ 0#8 ∧ c ∉ delim.chars).length]?).bind fun _ =>
        .ok (p.takeWhile fun c => c ≠ 0#8 ∧ c ∉ delim.chars).length := by
  induction p with
  | nil => rfl
  | cons c p ih =>
    by_cases hnul : c = 0#8
    · simp [strtok_scan, hnul, Outcome.bind]
    · by_cases hsep : c ∈ delim.chars
      · simp [strtok_scan, hnul, is_in_eq, hsep, Outcome.bind]
      · rw [List.takeWhile_cons_of_pos (by simpa using ⟨hnul, hsep⟩), List.length_cons, List.getElem?_cons_succ,
          strtok_scan, if_neg hnul, is_in_eq, ih]
        cases p[(p.takeWhile fun c => c ≠ 0#8 ∧ c ∉ delim.chars).length]? <;> simp [hsep, Outcome.bind]

/-- One call of `strtok_r`. A pointer into the string being cut is the string
that starts there: a token ends where the delimiter was overwritten, and
`saveptr` starts behind it. -/
def strtok_r (str : Option CString) (delim : CString) (saveptr : Option CString) :
    Option CString × Option CString :=
  match str.or saveptr with
  | none => (none, saveptr)
  | some s =>
    let p := (s.chars.takeWhile (· ∉ delim.chars)).length
    if p < s.chars.length then
      (some ⟨s.chars.take p, fun h => s.nonul (List.mem_of_mem_take h)⟩, some (s.drop (p + 1)))
    else
      (some s, none)

/-- The tokens that successive `strtok(NULL, delim)` calls return until the
first NULL. -/
def strtok_rest (delim : CString) : Nat → Option CString → List CString
  | 0, _ => []
  | fuel + 1, saveptr =>
    match strtok_r none delim saveptr with
    | (none, _) => []
    | (some token, saveptr) => token :: strtok_rest delim fuel saveptr

/-- The tokens of the whole iteration: `strtok(s, delim)`, then
`strtok(NULL, delim)` until it returns NULL. Every token but the last consumes
a delimiter, so the string's length bounds the number of calls. -/
def strtok_tokens (s delim : CString) : List CString := strtok_rest delim (s.chars.length + 1) (some s)

/-- The tokens of a string are its pieces between the delimiters, empty ones
included. -/
theorem strtok_rest_eq_splitOnP (delim s : CString) {fuel : Nat} (hfuel : s.chars.length < fuel) :
    (strtok_rest delim fuel (some s)).map CString.chars = s.chars.splitOnP (· ∈ delim.chars) := by
  induction fuel generalizing s with
  | zero => omega
  | succ fuel ih =>
    have hclean : ∀ c ∈ s.chars.takeWhile (· ∉ delim.chars), decide (c ∈ delim.chars) = false := by
      intro c hc
      simpa using List.mem_takeWhile_imp hc
    have hsplit := List.takeWhile_append_dropWhile (p := (· ∉ delim.chars)) (l := s.chars)
    have hhead := List.head?_dropWhile_not (· ∉ delim.chars) s.chars
    simp only [strtok_rest, strtok_r, Option.none_or]
    cases hback : s.chars.dropWhile (· ∉ delim.chars) with
    | nil =>
      rw [hback, List.append_nil] at hsplit
      rw [hsplit] at hclean
      rw [if_neg (by rw [hsplit]; omega), List.splitOnP_eq_singleton hclean]
      cases fuel <;> rfl
    | cons sep rest =>
      rw [hback] at hsplit hhead
      have hsep : decide (sep ∈ delim.chars) = true := by simpa using hhead
      have hlt : (s.chars.takeWhile (· ∉ delim.chars)).length < s.chars.length := by
        have hlen := congrArg List.length hsplit
        simp only [List.length_append, List.length_cons] at hlen
        omega
      have htake : s.chars.take (s.chars.takeWhile (· ∉ delim.chars)).length = s.chars.takeWhile (· ∉ delim.chars) :=
        (congrArg (List.take _) hsplit.symm).trans List.take_left
      have hdrop : s.chars.drop ((s.chars.takeWhile (· ∉ delim.chars)).length + 1) = rest := by
        apply (congrArg (List.drop _) hsplit.symm).trans
        rw [List.drop_append]
        simp
      have htail := ih (s.drop ((s.chars.takeWhile (· ∉ delim.chars)).length + 1)) (by
        simp only [CString.drop, List.length_drop]
        omega)
      rw [if_pos hlt, List.map_cons, htail]
      simp only [CString.drop]
      rw [htake, hdrop, ← List.splitOnP_append_cons_of_forall_mem hclean sep hsep, hsplit]

theorem strtok_tokens_eq_splitOnP (s delim : CString) :
    (strtok_tokens s delim).map CString.chars = s.chars.splitOnP (· ∈ delim.chars) :=
  strtok_rest_eq_splitOnP delim s (Nat.lt_succ_self _)

end ldso.string
