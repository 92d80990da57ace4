import LdSo.Dependency.Strings

open cmodel

namespace ldso.process

open dependency

variable {sys : System} {name : CString} {front back : List Byte} {j : Nat} {process : Process} {res : List CString}

/-- What the iteration leaves of a byte. -/
def cut (c : Byte) : Byte := if c ∈ delimiters.chars then 0#8 else c

theorem map_cut_of_clean {chars : List Byte} (h : ∀ c ∈ chars, c ∉ delimiters.chars) : chars.map cut = chars := by
  have hsame : ∀ c ∈ chars, cut c = id c := fun c hc => if_neg (h c hc)
  rw [List.map_congr_left hsame, List.map_id]

/-- A string keeps its bytes under the iteration exactly when it has no delimiter. -/
theorem map_cut_eq_iff {s : CString} : s.chars.map cut = s.chars ↔ ∀ c ∈ s.chars, c ∉ delimiters.chars := by
  constructor
  · intro h c hc hdelim
    obtain ⟨i, hi⟩ := List.mem_iff_getElem?.mp hc
    have hcut := congrArg (fun chars => chars[i]?) h
    simp only [List.getElem?_map, hi, Option.map_some, Option.some.injEq, cut, if_pos hdelim] at hcut
    exact s.nonul (hcut ▸ hc)
  · exact map_cut_of_clean

/-- The loop over LD_PRELOAD appends the tokens of the string, and overwrites
every delimiter in it. -/
theorem preload_loop_simulates {fuel : Nat} {str : Option Ptr} {s : CString} (hfuel : s.chars.length < fuel)
    (hj : process.buffers[j]? = some (front ++ (s.chars ++ 0#8 :: back)))
    (hstr : str.or process.pos = some ⟨j, front.length⟩) (hslots : process.slots = List.range res.length) :
    Simulates (strtok str delimiters >>= fun buff => preload_loop fuel buff res) process
      (.ok (res ++ string.strtok_rest delimiters fuel (some s))) fun table q =>
        q.buffers = process.buffers.set j (front ++ (s.chars.map cut ++ 0#8 :: back)) ∧
          q.slots = List.range table.length := by
  induction fuel generalizing s front process str res with
  | zero => omega
  | succ fuel ih =>
    obtain ⟨hlt, hget⟩ := List.getElem?_eq_some_iff.mp hj
    obtain hclean | ⟨token, sep, rest, hs, htoken, hsep⟩ := s.split_first (· ∈ delimiters.chars)
    · rw [strtok_rest_last hclean hfuel, map_cut_of_clean hclean, ← hget, List.set_getElem_self]
      apply Simulates.step (strtok_last hj hclean hstr)
      have hread : read ⟨j, front.length⟩ { process with pos := none } = .ok (s, { process with pos := none }) :=
        read_eq hj
      apply Simulates.step hread
      apply Simulates.step rfl
      apply Simulates.step (strtok_end rfl delimiters)
      have hpush : process.slots ++ [res.length] = List.range (res ++ [s]).length := hslots ▸ range_push res s
      cases fuel <;> exact .pure ⟨rfl, hpush⟩
    · have hcut : s.chars.map cut = token.chars ++ 0#8 :: rest.chars.map cut := by
        rw [hs, List.map_append, List.map_cons, map_cut_of_clean htoken, cut, if_pos hsep]
      rw [strtok_rest_cut hs htoken hsep hfuel, hcut]
      rw [hs, List.append_assoc, List.cons_append] at hj
      apply Simulates.step (strtok_cut hj htoken hsep hstr)
      apply Simulates.step (read_eq (List.getElem?_set_self hlt))
      apply Simulates.step rfl
      rw [List.append_cons res token (string.strtok_rest delimiters fuel (some rest))]
      refine Simulates.mono (ih ?_ ?_ rfl ?_) fun table q hq => ⟨?_, hq.2⟩
      · rw [hs, List.length_append, List.length_cons] at hfuel
        omega
      · rw [List.getElem?_set_self hlt]
        simp
      · exact hslots ▸ range_push res token
      · rw [hq.1, List.set_set]
        simp

section Shows

/-- A string in front of the terminator that has no NUL is part of the string that a buffer holds. -/
theorem Holds.prefix_chars {b pre : List Byte} {s : CString} (h : Holds b s) (hpre : pre <+: b)
    (hnonul : 0#8 ∉ pre) : pre <+: s.chars := by
  obtain ⟨back, rfl⟩ := h
  obtain hle | ⟨tail, rfl⟩ := List.prefix_or_prefix_of_prefix hpre (List.prefix_append s.chars (0#8 :: back))
  · exact hle
  · rw [List.prefix_append_right_inj] at hpre
    cases tail with
    | nil => simp
    | cons c tail =>
      obtain rfl := (List.cons_prefix_cons.mp hpre).1
      simp at hnonul

theorem exists_holds {b : List Byte} (h : 0#8 ∈ b) : ∃ s, Holds b s := by
  have hread : ∃ s, CString.read b 0 = .ok s := ⟨_, if_pos h⟩
  obtain ⟨s, hs⟩ := hread
  obtain ⟨back, hback⟩ := CString.read_eq_ok_iff.mp hs
  exact ⟨s, back, by simpa using hback⟩

theorem forall₂_set {α β : Type} {R : α → β → Prop} {as : List α} {bs : List β} (h : List.Forall₂ R as bs) {a : α}
    {b : β} (hab : R a b) (j : Nat) : List.Forall₂ R (as.set j a) (bs.set j b) := by
  induction h generalizing j with
  | nil => exact .nil
  | cons hhead htail ih =>
    cases j with
    | zero => exact .cons hab htail
    | succ j => exact .cons hhead (ih j)

/-- Replacing an element that a search passes over by another such one does not change what is found. -/
theorem find_set_of_not {α : Type} {p : α → Bool} {as : List α} {a b : α} {j : Nat} (hj : as[j]? = some a)
    (ha : p a = false)
    (hb : p b = false) : (as.set j b).find? p = as.find? p ∧ (as.set j b).findIdx? p = as.findIdx? p := by
  induction as generalizing j with
  | nil => simp
  | cons c as ih =>
    cases j with
    | zero =>
      cases hj
      simp [List.findIdx?_cons, ha, hb]
    | succ j =>
      obtain ⟨hfind, hidx⟩ := ih hj
      simp [List.find?_cons, List.findIdx?_cons, hfind, hidx]

/-- An entry that begins with LD_PRELOAD is none of LD_LIBRARY_PATH. -/
theorem not_extends_library_path {e : CString} (h : (CString.lit "LD_PRELOAD").chars <+: e.chars) :
    ¬ Extends (.lit "LD_LIBRARY_PATH") e := by
  rintro ⟨hext, -⟩
  obtain hle | hle := List.prefix_or_prefix_of_prefix hext h
  · revert hle
    decide +kernel
  · revert hle
    decide +kernel

end Shows

/-- The environment once LD_PRELOAD has been cut. -/
def preload_buffers (envp : List CString) : List (List Byte) :=
  match envp.findIdx? fun e => Extends (.lit "LD_PRELOAD") e, envp.find? fun e => Extends (.lit "LD_PRELOAD") e with
  | some j, some e =>
    let value := (CString.lit "LD_PRELOAD").chars.length + 1
    (envp.map CString.bytes).set j (e.chars.take value ++ ((e.drop value).chars.map cut ++ [0#8]))
  | _, _ => envp.map CString.bytes

/-- What a search finds stands where the search says. -/
theorem getElem?_of_find {α : Type} {p : α → Bool} {as : List α} {a : α} {j : Nat} (hidx : as.findIdx? p = some j)
    (hfind : as.find? p = some a) :
    as[j]? = some a := by
  rw [List.find?_eq_bind_findIdx?_getElem?, hidx] at hfind
  exact hfind

/-- Cutting LD_PRELOAD changes nothing exactly when no delimiter is in what is taken for its value. -/
theorem preload_buffers_eq_iff (envp : List CString) : preload_buffers envp = envp.map CString.bytes ↔
    ∀ value, display_auxv.get_env_value envp (.lit "LD_PRELOAD") = .ok (some value) →
      ∀ c ∈ value.chars, c ∉ delimiters.chars := by
  rw [get_env_value_eq_find]
  unfold preload_buffers
  split
  · next j e hidx hfind =>
    have hbuffer : (envp.map CString.bytes)[j]? = some e.bytes := by
      rw [List.getElem?_map, getElem?_of_find hidx hfind, Option.map_some]
    obtain ⟨hlt, hget⟩ := List.getElem?_eq_some_iff.mp hbuffer
    have hbytes : ∀ n, e.bytes = e.chars.take n ++ ((e.drop n).chars ++ [0#8]) := by
      intro n
      rw [CString.bytes, ← List.append_assoc, CString.drop, List.take_append_drop]
    have hsame : ∀ b, (envp.map CString.bytes).set j b = envp.map CString.bytes ↔ b = e.bytes := by
      intro b
      constructor
      · intro h
        have hj := congrArg (fun buffers => buffers[j]?) h
        simpa only [List.getElem?_set_self hlt, hbuffer, Option.some.injEq] using hj
      · rintro rfl
        rw [← hget, List.set_getElem_self]
    simp only [hfind, Option.map_some, Outcome.ok.injEq, Option.some.injEq, forall_eq', ← map_cut_eq_iff]
    rw [hsame, hbytes, List.append_cancel_left_eq, List.append_cancel_right_eq]
  · next hnone =>
    cases hfind : envp.find? fun e => Extends (.lit "LD_PRELOAD") e with
    | none => simp
    | some e =>
      rw [List.find?_eq_bind_findIdx?_getElem?] at hfind
      obtain ⟨j, hidx, hget⟩ := Option.bind_eq_some_iff.mp hfind
      refine absurd ?_ (hnone j e hidx)
      rw [List.find?_eq_bind_findIdx?_getElem?, hidx]
      exact hget

/-- Cutting LD_PRELOAD does not change what is found for LD_LIBRARY_PATH. -/
theorem shows_preload_buffers (h : process.buffers = preload_buffers sys.envp) :
    Shows sys (.lit "LD_LIBRARY_PATH") process := by
  unfold preload_buffers at h
  split at h
  · next j e hidx hfind =>
    have hext : Extends (.lit "LD_PRELOAD") e := by simpa using List.find?_some hfind
    have hj := getElem?_of_find hidx hfind
    obtain ⟨hsplit, hlength⟩ := extends_split hext
    have hhead : (CString.lit "LD_PRELOAD").chars <+: e.chars.take ((CString.lit "LD_PRELOAD").chars.length + 1) :=
      List.prefix_of_prefix_length_le hext.1 (List.take_prefix _ _) (by omega)
    obtain ⟨s, hs⟩ := exists_holds (b := e.chars.take ((CString.lit "LD_PRELOAD").chars.length + 1) ++
      ((e.drop ((CString.lit "LD_PRELOAD").chars.length + 1)).chars.map cut ++ [0#8])) (by simp)
    have hpre := hs.prefix_chars (hhead.trans (List.prefix_append _ _)) (CString.nonul _)
    obtain ⟨hfind', hidx'⟩ := find_set_of_not hj (p := fun e => Extends (.lit "LD_LIBRARY_PATH") e)
      (by simpa using not_extends_library_path hext.1) (by simpa using not_extends_library_path hpre)
    refine ⟨by rw [h]; simp, sys.envp.set j s, ?_, hidx', hfind'⟩
    rw [h, List.take_of_length_le (by simp)]
    exact forall₂_set (holds_envp sys.envp) hs j
  · exact shows_start sys _ process h

theorem preload_simulates (hbuffers : process.buffers = sys.envp.map CString.bytes)
    (hslots : process.slots = List.range res.length) :
    Simulates (preload sys res) process (dependency.preload sys >>= fun elements => .ok (res ++ elements)) fun table q =>
      q.buffers = preload_buffers sys.envp ∧ q.slots = List.range table.length := by
  rw [preload, dependency.preload, get_env_value_eq_find, Outcome.ok_bind, preload_buffers]
  have hshows := shows_start sys (.lit "LD_PRELOAD") process hbuffers
  cases hfind : sys.envp.find? fun e => Extends (.lit "LD_PRELOAD") e with
  | none =>
    apply Simulates.step (hshows.get_env_none hfind)
    simp only [Option.map_none, Outcome.pure_eq, Outcome.ok_bind, List.append_nil]
    exact .pure ⟨by split <;> simp_all, hslots⟩
  | some e =>
    obtain ⟨j, back, hidx, hj, hget⟩ := hshows.get_env_some hfind
    have hext : Extends (.lit "LD_PRELOAD") e := by simpa using List.find?_some hfind
    obtain ⟨hsplit, hlength⟩ := extends_split hext
    have hback : back = [] := by
      rw [List.find?_eq_bind_findIdx?_getElem?, hidx, Option.bind_some] at hfind
      rw [hbuffers, List.getElem?_map, hfind, Option.map_some, Option.some.injEq, CString.bytes,
        List.append_cancel_left_eq] at hj
      simpa using hj
    rw [hsplit, List.append_assoc, hback] at hj
    apply Simulates.step hget
    have hread := read_eq hj
    rw [hlength] at hread
    apply Simulates.step hread
    rw [hidx]
    simp only [Option.map_some, Outcome.pure_eq, Outcome.ok_bind]
    refine Simulates.mono (preload_loop_simulates (Nat.lt_succ_self _) hj (by rw [hlength]; rfl) hslots) fun table q hq => ⟨?_, hq.2⟩
    rw [hq.1, hbuffers]

end ldso.process
