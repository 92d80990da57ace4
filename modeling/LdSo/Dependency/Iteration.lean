import LdSo.Dependency.Strings

open cmodel

namespace ldso.process

/-- `strtok_r` with its scan as the loop that it is. -/
theorem strtok_r_eq_scan (buffers : List (List Byte)) (str : Option Ptr) (delim : CString) (saveptr : Option Ptr) :
    strtok_r buffers str delim saveptr = (
      match str.or saveptr with
      | none => .ok (none, saveptr, buffers)
      | some str => do
        let b := buffer buffers str.buffer
        let p := str.off + (← string.strtok_scan delim (b.drop str.off))
        let c ← Outcome.ofOption b[p]?
        if c ≠ 0#8 then .ok (some str, some ⟨str.buffer, p + 1⟩, buffers.set str.buffer (b.set p 0#8))
        else .ok (some str, none, buffers)) := by
  unfold strtok_r
  cases str.or saveptr with
  | none => rfl
  | some str =>
    simp only [string.strtok_scan_eq, List.getElem?_drop]
    cases hget : (buffer buffers str.buffer)[str.off +
        (((buffer buffers str.buffer).drop str.off).takeWhile fun c => c ≠ 0#8 ∧ c ∉ delim.chars).length]? with
    | none => rfl
    | some c => simp only [Outcome.bind, Outcome.ofOption_some, Outcome.ok_bind, hget]

/-- `strtok(NULL, delim)`, called `n` times. -/
def calls (delim : CString) : Nat → Run (List (Option Ptr))
  | 0 => return []
  | n + 1 => do
    let token ← strtok none delim
    let tokens ← calls delim n
    return token :: tokens

/-- `strtok(str, delim)`, then `strtok(NULL, delim)` `n` times. -/
def iterate (str : Option Ptr) (delim : CString) (n : Nat) : Run (List (Option Ptr)) := do
  let token ← strtok str delim
  let tokens ← calls delim n
  return token :: tokens

/-- Pieces with the separators between them put back. -/
def interleave : List (List Byte) → List Byte → List Byte
  | piece :: pieces, sep :: seps => piece ++ sep :: interleave pieces seps
  | pieces, [] => pieces.flatten
  | [], _ => []

/-- The bytes of a string once each of its delimiters is overwritten. -/
def overwritten (delim : CString) (chars : List Byte) : List Byte := chars.map fun c => if c ∈ delim.chars then 0#8 else c

/-- The delimiters in a string, in order. -/
def separators (delim : CString) (chars : List Byte) : List Byte := chars.filter (· ∈ delim.chars)

variable {process : Process} {front back : List Byte} {j : Nat} {delim : CString}

theorem overwritten_of_clean {chars : List Byte} (hclean : ∀ c ∈ chars, c ∉ delim.chars) :
    overwritten delim chars = chars := by
  unfold overwritten
  rw [List.map_congr_left fun c hc => if_neg (hclean c hc)]
  exact List.map_id _

theorem separators_of_clean {chars : List Byte} (hclean : ∀ c ∈ chars, c ∉ delim.chars) : separators delim chars = [] := by
  unfold separators
  simpa using hclean

/-- A string up to and behind its first delimiter. -/
theorem separators_of_split {s token rest : CString} {sep : Byte} (hs : s.chars = token.chars ++ sep :: rest.chars)
    (htoken : ∀ c ∈ token.chars, c ∉ delim.chars) (hsep : sep ∈ delim.chars) :
    separators delim s.chars = sep :: separators delim rest.chars := by
  have hfront : separators delim token.chars = [] := separators_of_clean htoken
  unfold separators at hfront ⊢
  rw [hs, List.filter_append, hfront, List.nil_append, List.filter_cons_of_pos (by simpa using hsep)]

theorem overwritten_of_split {s token rest : CString} {sep : Byte} (hs : s.chars = token.chars ++ sep :: rest.chars)
    (htoken : ∀ c ∈ token.chars, c ∉ delim.chars) (hsep : sep ∈ delim.chars) :
    overwritten delim s.chars = token.chars ++ 0#8 :: overwritten delim rest.chars := by
  have hfront : overwritten delim token.chars = token.chars := overwritten_of_clean htoken
  unfold overwritten at hfront ⊢
  rw [hs, List.map_append, hfront, List.map_cons, if_pos hsep]

/-- The tokens of a string are free of delimiters and one more than these, and with
them put back between they spell the string. -/
structure Cuts (delim s : CString) (tokens : List CString) : Prop where
  count : tokens.length = (separators delim s.chars).length + 1
  spell : interleave (tokens.map CString.chars) (separators delim s.chars) = s.chars
  clean : ∀ t ∈ tokens, ∀ c ∈ t.chars, c ∉ delim.chars

theorem Cuts.last {s : CString} (hclean : ∀ c ∈ s.chars, c ∉ delim.chars) : Cuts delim s [s] where
  count := by simp [separators_of_clean hclean]
  spell := by simp [separators_of_clean hclean, interleave]
  clean := by simpa using hclean

theorem Cuts.cons {s token rest : CString} {sep : Byte} {tokens : List CString}
    (hs : s.chars = token.chars ++ sep :: rest.chars) (htoken : ∀ c ∈ token.chars, c ∉ delim.chars)
    (hsep : sep ∈ delim.chars) (h : Cuts delim rest tokens) : Cuts delim s (token :: tokens) where
  count := by rw [separators_of_split hs htoken hsep, List.length_cons, List.length_cons, h.count]
  spell := by rw [separators_of_split hs htoken hsep, List.map_cons, interleave, h.spell, hs]
  clean := List.forall_mem_cons.mpr ⟨htoken, h.clean⟩

/-- What an iteration over the string `s` of buffer `j` leaves: only the string's
delimiters were overwritten, and its tokens stand where the calls said. -/
structure Iterated (j : Nat) (front back : List Byte) (delim s : CString) (process q : Process)
    (tokens : List CString) (places : List Ptr) : Prop where
  own : Own j process q
  pos : q.pos = none
  buffer : q.buffers[j]? = some (front ++ (overwritten delim s.chars ++ 0#8 :: back))
  content : List.Forall₂ (fun p t => read p q = .ok (t, q)) places tokens

/-- As many calls behind the first one as the string has delimiters return its tokens. -/
theorem iterate_tokens {str : Option Ptr} {s : CString}
    (hj : process.buffers[j]? = some (front ++ (s.chars ++ 0#8 :: back)))
    (hstr : str.or process.pos = some ⟨j, front.length⟩) :
    ∃ tokens places q, Cuts delim s tokens ∧ Iterated j front back delim s process q tokens places ∧
      iterate str delim (separators delim s.chars).length process = .ok (places.map some, q) := by
  induction hlength : s.chars.length using Nat.strong_induction_on generalizing s front process str with
  | _ length ih =>
    obtain hclean | ⟨token, sep, rest, hs, htoken, hsep⟩ := s.split_first (· ∈ delim.chars)
    · refine ⟨[s], [⟨j, front.length⟩], { process with pos := none }, .last hclean, ⟨⟨rfl, rfl, fun _ _ => rfl⟩, rfl, ?_, ?_⟩, ?_⟩
      · rw [overwritten_of_clean hclean]
        exact hj
      · have hread : read ⟨j, front.length⟩ { process with pos := none } = .ok (s, { process with pos := none }) :=
          read_eq hj
        exact .cons hread .nil
      · rw [separators_of_clean hclean, iterate, run_bind, strtok_last hj hclean hstr]
        rfl
    · have hcut := hj
      rw [hs, List.append_assoc, List.cons_append] at hcut
      have hlt : j < process.buffers.length := (List.getElem?_eq_some_iff.mp hj).1
      have hfirst := strtok_cut hcut htoken hsep hstr
      generalize hbetween : { process with
          pos := some ⟨j, (front ++ (token.chars ++ [0#8])).length⟩
          buffers := process.buffers.set j (front ++ (token.chars ++ 0#8 :: (rest.chars ++ 0#8 :: back))) } = between
        at hfirst
      have hown : Own j process between := by
        rw [← hbetween]
        exact ⟨rfl, List.length_set, fun i hi => List.getElem?_set_ne (Ne.symm hi)⟩
      have hshort : rest.chars.length < length := by
        rw [← hlength, hs, List.length_append, List.length_cons]
        omega
      have hrest : between.buffers[j]? = some ((front ++ (token.chars ++ [0#8])) ++ (rest.chars ++ 0#8 :: back)) := by
        rw [← hbetween, List.getElem?_set_self hlt]
        simp
      have hpos : (none : Option Ptr).or between.pos = some ⟨j, (front ++ (token.chars ++ [0#8])).length⟩ := by
        rw [← hbetween]
        rfl
      obtain ⟨tokens, places, q, hcuts, hdone, hrun⟩ := ih _ hshort hrest hpos rfl
      have hbuffer : q.buffers[j]? = some (front ++ (token.chars ++ 0#8 :: (overwritten delim rest.chars ++ 0#8 :: back))) := by
        rw [hdone.buffer]
        simp
      refine ⟨token :: tokens, ⟨j, front.length⟩ :: places, q, hcuts.cons hs htoken hsep,
        ⟨hown.trans hdone.own, hdone.pos, ?_, .cons (read_eq hbuffer) hdone.content⟩, ?_⟩
      · rw [hbuffer, overwritten_of_split hs htoken hsep]
        simp
      · rw [separators_of_split hs htoken hsep, List.length_cons, iterate, run_bind, hfirst, Outcome.ok_bind, run_bind]
        have hcalls : calls delim ((separators delim rest.chars).length + 1) between = .ok (places.map some, q) := hrun
        rw [hcalls]
        rfl

/-- What a call returns once the iteration is over. -/
theorem calls_of_end (hpos : process.pos = none) (n : Nat) :
    calls delim n process = .ok (List.replicate n none, process) := by
  induction n with
  | zero => rfl
  | succ n ih =>
    rw [calls, run_bind, strtok_end hpos, Outcome.ok_bind, run_bind, ih]
    rfl

theorem calls_add (m n : Nat) : calls delim (m + n) = do
    let front ← calls delim m
    let back ← calls delim n
    return front ++ back := by
  induction m with
  | zero => simp [calls]
  | succ m ih =>
    rw [Nat.add_right_comm, calls, calls, ih]
    simp

theorem iterate_add (str : Option Ptr) (m n : Nat) : iterate str delim (m + n) = do
    let front ← iterate str delim m
    let back ← calls delim n
    return front ++ back := by
  rw [iterate, iterate, calls_add]
  simp

section Abandoned

/-- Only delimiters were overwritten, with NUL. -/
def Marked (delim : CString) (b b' : List Byte) : Prop :=
  b'.length = b.length ∧ ∀ (i : Nat) c, b[i]? = some c → b'[i]? = some c ∨ c ∈ delim.chars ∧ b'[i]? = some 0#8

theorem Marked.refl (delim : CString) (b : List Byte) : Marked delim b b := ⟨rfl, fun _ _ h => .inl h⟩

theorem Marked.trans {b b' b'' : List Byte} (h : Marked delim b b') (h' : Marked delim b' b'') : Marked delim b b'' := by
  refine ⟨h'.1.trans h.1, ?_⟩
  intro i c hc
  obtain hkept | ⟨hsep, hnul⟩ := h.2 i c hc
  · exact h'.2 i c hkept
  · obtain hnul' | ⟨hbad, -⟩ := h'.2 i 0#8 hnul
    · exact .inr ⟨hsep, hnul'⟩
    · exact absurd hbad delim.nonul

/-- The iteration that goes on in buffer `j` has written delimiters of it only. -/
structure Midway (j : Nat) (delim : CString) (process q : Process) : Prop where
  own : Own j process q
  marked : Marked delim (buffer process.buffers j) (buffer q.buffers j)
  pos : ∀ p ∈ q.pos, p.buffer = j

theorem Midway.trans {p q r : Process} (h : Midway j delim p q) (h' : Midway j delim q r) : Midway j delim p r :=
  ⟨h.own.trans h'.own, h.marked.trans h'.marked, h'.pos⟩

theorem Marked.set {b : List Byte} {p : Nat} {c : Byte} (hget : b[p]? = some c) (hsep : c ∈ delim.chars) :
    Marked delim b (b.set p 0#8) := by
  refine ⟨List.length_set, ?_⟩
  intro i d hd
  obtain ⟨hlt, -⟩ := List.getElem?_eq_some_iff.mp hd
  by_cases hi : p = i
  · subst hi
    obtain rfl : c = d := Option.some.inj (hget.symm.trans hd)
    exact .inr ⟨hsep, List.getElem?_set_self hlt⟩
  · exact .inl (by rw [List.getElem?_set_ne hi, hd])

/-- The byte that the scan of `strtok_r` stops at is a delimiter or the terminator. -/
theorem stop_mem {b : List Byte} {off : Nat} {c : Byte}
    (hget : b[off + ((b.drop off).takeWhile fun c => c ≠ 0#8 ∧ c ∉ delim.chars).length]? = some c) (hc : c ≠ 0#8) :
    c ∈ delim.chars := by
  rw [← List.getElem?_drop] at hget
  generalize b.drop off = l at hget
  induction l with
  | nil => cases hget
  | cons d l ih =>
    by_cases hd : d ≠ 0#8 ∧ d ∉ delim.chars
    · rw [List.takeWhile_cons_of_pos (by simpa using hd)] at hget
      exact ih (by simpa using hget)
    · rw [List.takeWhile_cons_of_neg (by simpa using hd)] at hget
      obtain rfl : d = c := by simpa using hget
      exact Decidable.not_not.mp fun hmem => hd ⟨hc, hmem⟩

/-- One call writes at most one byte, a delimiter. -/
theorem strtok_midway {str token : Option Ptr} {q : Process} (hstr : ∀ p ∈ str.or process.pos, p.buffer = j)
    (h : strtok str delim process = .ok (token, q)) : Midway j delim process q := by
  obtain ⟨⟨token', pos, buffers⟩, hcall, h⟩ := Outcome.bind_eq_ok_iff.mp h
  cases h
  unfold strtok_r at hcall
  cases hor : str.or process.pos with
  | none =>
    rw [hor] at hcall
    cases hcall
    exact ⟨⟨rfl, rfl, fun _ _ => rfl⟩, .refl _ _, fun p hp => hstr p (by
      cases str with
      | none => exact hp
      | some _ => cases hor)⟩
  | some p =>
    have hp : p.buffer = j := hstr p (by rw [hor]; rfl)
    rw [hor] at hcall
    simp only [hp] at hcall
    split at hcall
    · cases hcall
    · next c hget =>
      split at hcall
      · next hc =>
        cases hcall
        have hsep := stop_mem hget hc
        have hlt : j < process.buffers.length := by
          by_contra hout
          simp [buffer, List.getElem?_eq_none (Nat.le_of_not_lt hout)] at hget
        refine ⟨⟨rfl, List.length_set, fun i hi => List.getElem?_set_ne (Ne.symm hi)⟩, ?_, ?_⟩
        · have hset := Marked.set hget hsep
          simpa [buffer, List.getElem?_set_self hlt] using hset
        · rintro r ⟨⟩
          rfl
      · cases hcall
        exact ⟨⟨rfl, rfl, fun _ _ => rfl⟩, .refl _ _, by rintro r ⟨⟩⟩

/-- An iteration is a call and then others, of which the same holds. -/
theorem iterate_midway_of {str : Option Ptr} {n : Nat} {tokens : List (Option Ptr)} {q : Process}
    (hcalls : ∀ {process q : Process} {tokens : List (Option Ptr)}, (∀ p ∈ process.pos, p.buffer = j) →
      calls delim n process = .ok (tokens, q) → Midway j delim process q)
    (hstr : ∀ p ∈ str.or process.pos, p.buffer = j) (h : iterate str delim n process = .ok (tokens, q)) :
    Midway j delim process q := by
  rw [iterate, run_bind] at h
  obtain ⟨⟨token, p⟩, hcall, h⟩ := Outcome.bind_eq_ok_iff.mp h
  rw [run_bind] at h
  obtain ⟨⟨rest, r⟩, hrest, h⟩ := Outcome.bind_eq_ok_iff.mp h
  cases h
  have hfirst := strtok_midway hstr hcall
  exact hfirst.trans (hcalls hfirst.pos hrest)

theorem calls_midway {n : Nat} {tokens : List (Option Ptr)} {q : Process} (hpos : ∀ p ∈ process.pos, p.buffer = j)
    (h : calls delim n process = .ok (tokens, q)) : Midway j delim process q := by
  induction n generalizing process tokens q with
  | zero =>
    cases h
    exact ⟨⟨rfl, rfl, fun _ _ => rfl⟩, .refl _ _, hpos⟩
  | succ n ih => exact iterate_midway_of ih (by simpa using hpos) h

theorem iterate_midway {str : Option Ptr} {n : Nat} {tokens : List (Option Ptr)} {q : Process}
    (hstr : ∀ p ∈ str.or process.pos, p.buffer = j) (h : iterate str delim n process = .ok (tokens, q)) :
    Midway j delim process q := iterate_midway_of calls_midway hstr h

/-- Two runs that end alike, and leave the same in buffer `i`. -/
inductive Alike {α : Type} (i : Nat) : Outcome (α × Process) → Outcome (α × Process) → Prop where
  | ok {a : α} {p q : Process} (hpos : p.pos = q.pos) (hin : ∀ r ∈ p.pos, r.buffer = i)
      (hbuffer : p.buffers[i]? = q.buffers[i]?) : Alike i (.ok (a, p)) (.ok (a, q))
  | fault : Alike i .fault .fault

theorem Alike.bind {α β : Type} {i : Nat} {x : Run α} {p q : Process} {f : α → Run β} (h : Alike i (x p) (x q))
    (hf : ∀ a (p q : Process), p.pos = q.pos → (∀ r ∈ p.pos, r.buffer = i) → p.buffers[i]? = q.buffers[i]? →
      Alike i (f a p) (f a q)) : Alike i ((x >>= f) p) ((x >>= f) q) := by
  rw [run_bind, run_bind]
  generalize x p = left at h
  generalize x q = right at h
  cases h with
  | ok hpos hin hbuffer => exact hf _ _ _ hpos hin hbuffer
  | fault => exact .fault

/-- A call looks at the buffer that it cuts and at nothing else. -/
theorem strtok_alike {str : Option Ptr} {i : Nat} {p q : Process} (hpos : str.or p.pos = str.or q.pos)
    (hin : ∀ r ∈ str.or p.pos, r.buffer = i) (hbuffer : p.buffers[i]? = q.buffers[i]?) :
    Alike i (strtok str delim p) (strtok str delim q) := by
  unfold strtok strtok_r
  rw [← hpos]
  cases hor : str.or p.pos with
  | none =>
    obtain ⟨hstr, hp⟩ : str = none ∧ p.pos = none := by simpa using hor
    have hq : q.pos = none := by
      rw [hor] at hpos
      exact (by simpa using hpos.symm : str = none ∧ q.pos = none).2
    exact .ok (by rw [hp, hq]) (by simp [hp]) hbuffer
  | some r =>
    obtain rfl : r.buffer = i := hin r (by rw [hor]; rfl)
    have hsame : buffer p.buffers r.buffer = buffer q.buffers r.buffer := by rw [buffer, buffer, hbuffer]
    simp only [hsame]
    split
    · exact .fault
    · split
      · refine .ok rfl ?_ ?_
        · rintro s ⟨⟩
          rfl
        · rw [List.getElem?_set_self', List.getElem?_set_self', hbuffer]
      · exact .ok rfl (by rintro s ⟨⟩) hbuffer

theorem iterate_alike_of {str : Option Ptr} {i n : Nat} {p q : Process}
    (hcalls : ∀ {p q : Process}, p.pos = q.pos → (∀ r ∈ p.pos, r.buffer = i) → p.buffers[i]? = q.buffers[i]? →
      Alike i (calls delim n p) (calls delim n q))
    (hpos : str.or p.pos = str.or q.pos) (hin : ∀ r ∈ str.or p.pos, r.buffer = i)
    (hbuffer : p.buffers[i]? = q.buffers[i]?) : Alike i (iterate str delim n p) (iterate str delim n q) := by
  rw [iterate]
  apply Alike.bind (strtok_alike hpos hin hbuffer)
  intro token p' q' hpos' hin' hbuffer'
  apply Alike.bind (hcalls hpos' hin' hbuffer')
  intro tokens p'' q'' hpos'' hin'' hbuffer''
  exact .ok hpos'' hin'' hbuffer''

theorem calls_alike {i n : Nat} {p q : Process} (hpos : p.pos = q.pos) (hin : ∀ r ∈ p.pos, r.buffer = i)
    (hbuffer : p.buffers[i]? = q.buffers[i]?) : Alike i (calls delim n p) (calls delim n q) := by
  induction n generalizing p q with
  | zero => exact .ok hpos hin hbuffer
  | succ n ih => exact iterate_alike_of ih (by simpa using hpos) (by simpa using hin) hbuffer

/-- An iteration that is begun anew ends alike wherever the last one was left. -/
theorem iterate_alike {i o n : Nat} {p q : Process} (hbuffer : p.buffers[i]? = q.buffers[i]?) :
    Alike i (iterate (some ⟨i, o⟩) delim n p) (iterate (some ⟨i, o⟩) delim n q) := by
  apply iterate_alike_of calls_alike
  · rw [Option.some_or, Option.some_or]
  · rintro r ⟨⟩
    rfl
  · exact hbuffer

end Abandoned

/-- Any number of calls of the iteration returns: the string's tokens, then NULL. -/
theorem iterate_returns {s : CString} (hj : process.buffers[j]? = some (front ++ (s.chars ++ 0#8 :: back))) (n : Nat) :
    ∃ tokens q, iterate (some ⟨j, front.length⟩) delim n process = .ok (tokens, q) := by
  obtain ⟨tokens, places, q, -, hdone, hrun⟩ := iterate_tokens hj Option.some_or
  obtain hle | hge := Nat.le_total n (separators delim s.chars).length
  · obtain ⟨d, hd⟩ := Nat.exists_eq_add_of_le hle
    rw [hd, iterate_add, run_bind] at hrun
    obtain ⟨⟨first, p⟩, hfirst, -⟩ := Outcome.bind_eq_ok_iff.mp hrun
    exact ⟨first, p, hfirst⟩
  · obtain ⟨d, rfl⟩ := Nat.exists_eq_add_of_le hge
    refine ⟨places.map some ++ List.replicate d none, q, ?_⟩
    rw [iterate_add, run_bind, hrun, Outcome.ok_bind, run_bind, calls_of_end hdone.pos]
    rfl

/-- An iteration over a string returns one token more than the string has delimiters
and then NULL; nothing of the string is lost, and of the memory only its delimiters
are overwritten. One that is left after any number of calls has done no more than
that, and a new one, over any string elsewhere or with any place to go on at, runs
as if it had not been there. -/
theorem strtok_iteration {s : CString} (hj : process.buffers[j]? = some (front ++ (s.chars ++ 0#8 :: back))) :
    (∃ tokens places q, Cuts delim s tokens ∧ Iterated j front back delim s process q tokens places ∧
      ∀ n, iterate (some ⟨j, front.length⟩) delim ((separators delim s.chars).length + n) process =
        .ok (places.map some ++ List.replicate n none, q)) ∧
    ∀ n, ∃ tokens q, iterate (some ⟨j, front.length⟩) delim n process = .ok (tokens, q) ∧ Midway j delim process q ∧
      (∀ i ≠ j, ∀ o delim' m,
        Alike i (iterate (some ⟨i, o⟩) delim' m process) (iterate (some ⟨i, o⟩) delim' m q)) ∧
      ∀ p delim' m pos, iterate (some p) delim' m { q with pos } = iterate (some p) delim' m q := by
  constructor
  · obtain ⟨tokens, places, q, hcuts, hdone, hrun⟩ := iterate_tokens hj Option.some_or
    refine ⟨tokens, places, q, hcuts, hdone, ?_⟩
    intro n
    rw [iterate_add, run_bind, hrun, Outcome.ok_bind, run_bind, calls_of_end hdone.pos]
    rfl
  · intro n
    obtain ⟨tokens, q, hrun⟩ := iterate_returns hj n
    have hmid : Midway j delim process q := iterate_midway (by rintro p ⟨⟩; rfl) hrun
    exact ⟨tokens, q, hrun, hmid, fun i hi o delim' m => iterate_alike (hmid.own.buffers i hi).symm,
      fun _ _ _ _ => rfl⟩

/-- A process that has one string, and is in the middle of cutting another. -/
def one_string : Process := ⟨[(CString.lit "/a::/b").bytes, (CString.lit "c:d").bytes], some ⟨1, 2⟩, []⟩

/-- Three calls cut its two delimiters, the fourth one returns NULL. -/
theorem strtok_iteration_colons : ∃ (places : List Ptr) (q : Process),
    iterate (some ⟨0, 0⟩) (.lit ":") 3 one_string = .ok (places.map some ++ [none], q) ∧ places.length = 3 ∧
      q.buffers[0]? = some ((CString.lit "/a").bytes ++ 0#8 :: (CString.lit "/b").bytes) := by
  have hj : one_string.buffers[0]? = some ([] ++ ((CString.lit "/a::/b").chars ++ 0#8 :: [])) := rfl
  obtain ⟨⟨tokens, places, q, hcuts, hdone, hrun⟩, -⟩ := @strtok_iteration one_string [] [] 0 (.lit ":") _ hj
  have hcount : tokens.length = 3 := hcuts.count.trans (by decide +kernel)
  refine ⟨places, q, hrun 1, hdone.content.length_eq.trans hcount, ?_⟩
  rw [hdone.buffer]
  decide +kernel

end ldso.process
