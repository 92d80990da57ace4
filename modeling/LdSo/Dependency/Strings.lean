import LdSo.Dependency.Environment

open cmodel

namespace ldso.process

open dependency

variable {sys : System} {name : CString} {front back : List Byte} {j : Nat} {process : Process}

/-- The scan of `strtok_r` stops at the first terminator or delimiter, and that is
the byte it looks at. -/
theorem scan_stops (front back : List Byte) {delim token : CString} {stop : Byte}
    (htoken : ∀ c ∈ token.chars, c ∉ delim.chars) (hstop : stop = 0#8 ∨ stop ∈ delim.chars) :
    ((token.chars ++ stop :: back).takeWhile fun c => c ≠ 0#8 ∧ c ∉ delim.chars) = token.chars ∧
      (front ++ (token.chars ++ stop :: back))[front.length + token.chars.length]? = some stop := by
  constructor
  · rw [List.takeWhile_append_of_pos]
    · obtain rfl | hstop := hstop <;> simp [*]
    · intro c hc
      rw [decide_eq_true_eq]
      exact ⟨fun h => token.nonul (h ▸ hc), htoken c hc⟩
  · rw [List.getElem?_append_right (by omega), List.getElem?_append_right (by omega)]
    simp

/-- A string ends where the scan of `strtok_r` meets the terminator. -/
theorem strtok_r_last {buffers : List (List Byte)} {str saveptr : Option Ptr} {delim s : CString}
    (hj : buffers[j]? = some (front ++ (s.chars ++ 0#8 :: back))) (hclean : ∀ c ∈ s.chars, c ∉ delim.chars)
    (hstr : str.or saveptr = some ⟨j, front.length⟩) :
    strtok_r buffers str delim saveptr = .ok (some ⟨j, front.length⟩, none, buffers) := by
  obtain ⟨hscan, hget⟩ := scan_stops front back hclean (Or.inl rfl)
  simp only [strtok_r, hstr, buffer, hj, Option.getD_some, List.drop_left, hscan, hget, ne_eq, not_true_eq_false,
    if_false]

/-- A delimiter is overwritten, and the next call goes on behind it. -/
theorem strtok_r_cut {buffers : List (List Byte)} {str saveptr : Option Ptr} {delim token : CString} {sep : Byte}
    (hj : buffers[j]? = some (front ++ (token.chars ++ sep :: back))) (htoken : ∀ c ∈ token.chars, c ∉ delim.chars)
    (hsep : sep ∈ delim.chars) (hstr : str.or saveptr = some ⟨j, front.length⟩) :
    strtok_r buffers str delim saveptr = .ok (some ⟨j, front.length⟩, some ⟨j, (front ++ (token.chars ++ [0#8])).length⟩,
      buffers.set j (front ++ (token.chars ++ 0#8 :: back))) := by
  have hnul : sep ≠ 0#8 := fun h => delim.nonul (h ▸ hsep)
  obtain ⟨hscan, hget⟩ := scan_stops front back htoken (Or.inr hsep)
  have hset : (front ++ (token.chars ++ sep :: back)).set (front.length + token.chars.length) 0#8 =
      front ++ (token.chars ++ 0#8 :: back) := by
    rw [List.set_append_right _ _ (by omega), List.set_append_right _ _ (by omega)]
    simp
  simp only [strtok_r, hstr, buffer, hj, Option.getD_some, List.drop_left, hscan, hget, ne_eq, hnul,
    not_false_eq_true, if_true, hset]
  simp [Nat.add_assoc]

/-- Only buffer `j` was written. -/
structure Own (j : Nat) (p q : Process) : Prop where
  slots : q.slots = p.slots
  length : q.buffers.length = p.buffers.length
  buffers : ∀ i ≠ j, q.buffers[i]? = p.buffers[i]?

theorem Own.trans {p q r : Process} (hpq : Own j p q) (hqr : Own j q r) : Own j p r where
  slots := hqr.slots.trans hpq.slots
  length := hqr.length.trans hpq.length
  buffers i hi := (hqr.buffers i hi).trans (hpq.buffers i hi)

theorem read_eq {s : CString} (hj : process.buffers[j]? = some (front ++ (s.chars ++ 0#8 :: back))) :
    read ⟨j, front.length⟩ process = .ok (s, process) := by
  have hread : CString.read (front ++ (s.chars ++ 0#8 :: back)) front.length = .ok s :=
    CString.read_eq_ok_iff.mpr ⟨back, List.drop_left⟩
  simp only [read, buffer, hj, Option.getD_some, hread, Outcome.ok_bind]
  rfl

theorem strtok_last {str : Option Ptr} {delim s : CString}
    (hj : process.buffers[j]? = some (front ++ (s.chars ++ 0#8 :: back)))
    (hclean : ∀ c ∈ s.chars, c ∉ delim.chars) (hstr : str.or process.pos = some ⟨j, front.length⟩) :
    strtok str delim process = .ok (some ⟨j, front.length⟩, { process with pos := none }) := by
  rw [strtok, strtok_r_last hj hclean hstr]
  rfl

theorem strtok_cut {str : Option Ptr} {delim token : CString} {sep : Byte}
    (hj : process.buffers[j]? = some (front ++ (token.chars ++ sep :: back)))
    (htoken : ∀ c ∈ token.chars, c ∉ delim.chars)
    (hsep : sep ∈ delim.chars) (hstr : str.or process.pos = some ⟨j, front.length⟩) :
    strtok str delim process = .ok (some ⟨j, front.length⟩,
      { process with
        pos := some ⟨j, (front ++ (token.chars ++ [0#8])).length⟩
        buffers := process.buffers.set j (front ++ (token.chars ++ 0#8 :: back)) }) := by
  rw [strtok, strtok_r_cut hj htoken hsep hstr]
  rfl

theorem strtok_end (hpos : process.pos = none) (delim : CString) :
    strtok none delim process = .ok (none, process) := by
  obtain ⟨buffers, pos, slots⟩ := process
  cases hpos
  rfl

/-- The tokens of a string without a delimiter. -/
theorem strtok_rest_last {delim s : CString} (hclean : ∀ c ∈ s.chars, c ∉ delim.chars) {fuel : Nat}
    (hfuel : s.chars.length < fuel) : string.strtok_rest delim fuel (some s) = [s] := by
  apply List.map_injective_iff.mpr fun _ _ => CString.ext
  rw [string.strtok_rest_eq_splitOnP delim s hfuel, List.splitOnP_eq_singleton (by simpa using hclean)]
  rfl

/-- The tokens of a string up to and behind its first delimiter. -/
theorem strtok_rest_cut {delim s token rest : CString} {sep : Byte} (hs : s.chars = token.chars ++ sep :: rest.chars)
    (htoken : ∀ c ∈ token.chars, c ∉ delim.chars) (hsep : sep ∈ delim.chars) {fuel : Nat}
    (hfuel : s.chars.length < fuel + 1) :
    string.strtok_rest delim (fuel + 1) (some s) = token :: string.strtok_rest delim fuel (some rest) := by
  have hrest : rest.chars.length < fuel := by
    rw [hs, List.length_append, List.length_cons] at hfuel
    omega
  apply List.map_injective_iff.mpr fun _ _ => CString.ext
  rw [string.strtok_rest_eq_splitOnP delim s hfuel, List.map_cons, string.strtok_rest_eq_splitOnP delim rest hrest, hs,
    List.splitOnP_append_cons_of_forall_mem (by simpa using htoken) sep (by simpa using hsep)]

/-- One pass through the loop of `test`. -/
theorem test_loop_pass {fuel : Nat} {p : Ptr} {token : CString} {rest : List CString}
    {Q : Option CString → Process → Prop} (hread : read p process = .ok (token, process)) (hQ : ∀ res, Q res process)
    (hrest : Simulates (strtok none delimiters >>= test_loop sys name fuel) process (test_directories sys name rest) Q) :
    Simulates (test_loop sys name (fuel + 1) (some p)) process (test_directories sys name (token :: rest)) Q := by
  rw [test_loop, test_directories]
  apply Simulates.step hread
  apply Simulates.bind_lift
  intro ret _
  by_cases hopen : (sys.file ret).isSome = true
  · rw [if_pos hopen, if_pos hopen]
    exact .pure (hQ _)
  · rw [if_neg hopen, if_neg hopen]
    exact hrest

/-- The loop of `test` over a string in buffer `j` tries the string's tokens,
and writes nothing but that buffer. -/
theorem test_loop_simulates {fuel : Nat} {str : Option Ptr} {s : CString} (hfuel : s.chars.length < fuel)
    (hj : process.buffers[j]? = some (front ++ (s.chars ++ 0#8 :: back)))
    (hstr : str.or process.pos = some ⟨j, front.length⟩) :
    Simulates (strtok str delimiters >>= test_loop sys name fuel) process
      (test_directories sys name (string.strtok_rest delimiters fuel (some s))) fun _ => Own j process := by
  induction fuel generalizing s front process str with
  | zero => omega
  | succ fuel ih =>
    obtain hclean | ⟨token, sep, rest, hs, htoken, hsep⟩ := s.split_first (· ∈ delimiters.chars)
    · rw [strtok_rest_last hclean hfuel]
      apply Simulates.step (strtok_last hj hclean hstr)
      have hread : read ⟨j, front.length⟩ { process with pos := none } = .ok (s, { process with pos := none }) :=
        read_eq hj
      apply test_loop_pass hread
      · exact fun _ => ⟨rfl, rfl, fun _ _ => rfl⟩
      · apply Simulates.step (strtok_end rfl delimiters)
        cases fuel <;> exact .pure ⟨rfl, rfl, fun _ _ => rfl⟩
    · rw [strtok_rest_cut hs htoken hsep hfuel]
      rw [hs, List.append_assoc, List.cons_append] at hj
      have hlt : j < process.buffers.length := (List.getElem?_eq_some_iff.mp hj).1
      apply Simulates.step (strtok_cut hj htoken hsep hstr)
      have hown : Own j process { process with
          pos := some ⟨j, (front ++ (token.chars ++ [0#8])).length⟩
          buffers := process.buffers.set j (front ++ (token.chars ++ 0#8 :: (rest.chars ++ 0#8 :: back))) } :=
        ⟨rfl, List.length_set, fun i hi => List.getElem?_set_ne (Ne.symm hi)⟩
      apply test_loop_pass (read_eq (List.getElem?_set_self hlt)) fun _ => hown
      refine (ih ?_ ?_ rfl).mono fun _ _ => hown.trans
      · rw [hs, List.length_append, List.length_cons] at hfuel
        omega
      · rw [List.getElem?_set_self hlt]
        simp

/-- Buffers were only added, and no table slot was written. -/
structure Copies (p q : Process) : Prop where
  buffers : p.buffers <+: q.buffers
  slots : q.slots = p.slots

theorem Copies.refl (p : Process) : Copies p p := ⟨List.prefix_refl _, rfl⟩

theorem Copies.trans {p q r : Process} (hpq : Copies p q) (hqr : Copies q r) : Copies p r where
  buffers := hpq.buffers.trans hqr.buffers
  slots := hqr.slots.trans hpq.slots

/-- Writing a new buffer leaves the older ones alone. -/
theorem Own.copies {p q : Process} {b : List Byte}
    (h : Own p.buffers.length { p with buffers := p.buffers ++ [b] } q) : Copies p q := by
  refine ⟨List.prefix_iff_getElem?.mpr fun i hi => ?_, h.slots⟩
  rw [h.buffers i (by omega), List.getElem?_append_left hi, List.getElem?_eq_getElem hi]

theorem test_simulates (sys : System) (path name : CString) (process : Process) :
    Simulates (test sys path name) process (dependency.test sys path name) fun _ => Copies process := by
  rw [test, dependency.test, strdup, bind_assoc]
  apply Simulates.bind_lift
  intro copy _
  have hj : (process.buffers ++ [copy.bytes])[process.buffers.length]? = some ([] ++ (copy.chars ++ 0#8 :: [])) := by
    simp [CString.bytes]
  apply Simulates.step rfl
  have hread : read ⟨process.buffers.length, ([] : List Byte).length⟩ { process with buffers := process.buffers ++ [copy.bytes] } =
      .ok (copy, { process with buffers := process.buffers ++ [copy.bytes] }) := read_eq hj
  apply Simulates.step hread
  exact (test_loop_simulates (Nat.lt_succ_self _) hj rfl).mono fun _ _ => Own.copies

theorem search_paths_simulates (sys : System) (tag : BitVec 64) (string : List Byte) (name : CString)
    (dyns : List elf.Dyn) (process : Process) :
    Simulates (search_paths sys tag string name dyns) process (dependency.search_paths sys tag string name dyns)
      fun _ => Copies process := by
  induction dyns generalizing process with
  | nil => rfl
  | cons dyn rest ih =>
    rw [search_paths, dependency.search_paths]
    by_cases hnull : dyn.d_tag = elf.DT_NULL
    · rw [if_pos hnull, if_pos hnull]
      exact .pure (.refl process)
    · rw [if_neg hnull, if_neg hnull]
      by_cases htag : dyn.d_tag = tag
      · rw [if_pos htag, if_pos htag]
        apply Simulates.bind_lift
        intro path _
        apply Simulates.bind (test_simulates sys path name process)
        intro res q hq
        cases res with
        | some res => exact .pure hq
        | none => exact (ih q).mono fun _ _ => hq.trans
      · rw [if_neg htag, if_neg htag]
        exact ih process

section Environment

/-- The environment as it is now gives a variable the value that it was started with. -/
structure Shows (sys : System) (name : CString) (process : Process) : Prop where
  length : sys.envp.length ≤ process.buffers.length
  value : ∃ strings, List.Forall₂ Holds (process.buffers.take sys.envp.length) strings ∧
    (strings.findIdx? fun e => Extends name e) = (sys.envp.findIdx? fun e => Extends name e) ∧
    (strings.find? fun e => Extends name e) = sys.envp.find? fun e => Extends name e

theorem shows_start (sys : System) (name : CString) (process : Process)
    (h : process.buffers = sys.envp.map CString.bytes) :
    Shows sys name process := by
  refine ⟨by rw [h, List.length_map], sys.envp, ?_, rfl, rfl⟩
  rw [h, List.take_of_length_le (by rw [List.length_map])]
  exact holds_envp sys.envp

theorem Shows.copies {p q : Process} (h : Shows sys name p) (hcopies : Copies p q) : Shows sys name q := by
  obtain ⟨hlength, strings, hholds, hvalue⟩ := h
  obtain ⟨tail, htail⟩ := hcopies.buffers
  refine ⟨hlength.trans hcopies.buffers.length_le, strings, ?_, hvalue⟩
  rwa [← htail, List.take_append_of_le_length hlength]

theorem Shows.get_env_none (h : Shows sys name process) (hnone : (sys.envp.find? fun e => Extends name e) = none) :
    get_env sys name process = .ok (none, process) := by
  obtain ⟨-, strings, hholds, hidx, hfind⟩ := h
  have hmiss : (strings.findIdx? fun e => Extends name e) = none := by
    rw [hnone] at hfind
    simpa using hfind
  rw [get_env, get_env_value_eq hholds, hmiss]
  rfl

theorem Shows.get_env_some {e : CString} (h : Shows sys name process)
    (hsome : (sys.envp.find? fun e => Extends name e) = some e) :
    ∃ j back, (sys.envp.findIdx? fun e => Extends name e) = some j ∧
      process.buffers[j]? = some (e.chars ++ 0#8 :: back) ∧
      get_env sys name process = .ok (some ⟨j, name.chars.length + 1⟩, process) := by
  obtain ⟨hlength, strings, hholds, hidx, hfind⟩ := h
  rw [hsome, List.find?_eq_bind_findIdx?_getElem?] at hfind
  obtain ⟨j, hj, hget⟩ := Option.bind_eq_some_iff.mp hfind
  obtain ⟨hlt, hgetj⟩ := List.getElem?_eq_some_iff.mp hget
  have hbuffer : j < (process.buffers.take sys.envp.length).length := hholds.length_eq ▸ hlt
  obtain ⟨back, hback⟩ := hholds.get hbuffer hlt
  refine ⟨j, back, hidx ▸ hj, ?_, ?_⟩
  · have hbound := hbuffer
    rw [List.length_take] at hbound
    rw [List.get_eq_getElem, List.get_eq_getElem, hgetj, List.getElem_take] at hback
    rw [List.getElem?_eq_getElem (by omega), hback]
  · rw [get_env, get_env_value_eq hholds, hj]
    rfl

/-- An entry that extends a name is the name, one byte, and the value. -/
theorem extends_split {e : CString} (h : Extends name e) :
    e.chars = e.chars.take (name.chars.length + 1) ++ (e.drop (name.chars.length + 1)).chars ∧
    (e.chars.take (name.chars.length + 1)).length = name.chars.length + 1 := by
  refine ⟨(List.take_append_drop _ _).symm, ?_⟩
  rw [List.length_take, min_eq_left h.2]

theorem search_environment_simulates (hshows : Shows sys (.lit "LD_LIBRARY_PATH") process) (name : CString) :
    Simulates (search_environment sys name) process (dependency.search_environment sys name) fun _ => Copies process := by
  rw [search_environment, dependency.search_environment, get_env_value_eq_find, Outcome.ok_bind]
  cases hfind : sys.envp.find? fun e => Extends (.lit "LD_LIBRARY_PATH") e with
  | none =>
    apply Simulates.step (hshows.get_env_none hfind)
    exact .pure (.refl process)
  | some e =>
    obtain ⟨j, back, -, hj, hget⟩ := hshows.get_env_some hfind
    have hext : Extends (.lit "LD_LIBRARY_PATH") e := by simpa using List.find?_some hfind
    obtain ⟨hsplit, hlength⟩ := extends_split hext
    rw [hsplit, List.append_assoc] at hj
    apply Simulates.step hget
    have hread := read_eq hj
    rw [hlength] at hread
    apply Simulates.step hread
    exact test_simulates sys _ name process

/-- A place that is searched: its hit is returned, and otherwise the search goes on. -/
theorem place_simulates {x : Run (Option CString)} {y : Outcome (Option CString)} {rest : Run CString}
    {rest' : Outcome CString} {start p : Process} (hp : Copies start p) (hx : Simulates x p y fun _ => Copies p)
    (hrest : ∀ q, Copies start q → Simulates rest q rest' fun _ => Copies start) :
    Simulates (do
      if let some res ← x then return res
      rest) p (do
      if let some res ← y then return res
      rest') fun _ => Copies start := by
  apply Simulates.bind hx
  intro hit q hq
  cases hit with
  | some res => exact .pure (hp.trans hq)
  | none => exact hrest q (hp.trans hq)

theorem get_lib_absolute_path_simulates (hshows : Shows sys (.lit "LD_LIBRARY_PATH") process) (name binary : CString) :
    Simulates (get_lib_absolute_path sys name binary) process (dependency.get_lib_absolute_path sys name binary)
      fun _ => Copies process := by
  rw [get_lib_absolute_path, dependency.get_lib_absolute_path]
  by_cases habsolute : name.chars.head? = some 0x2f#8
  · rw [if_pos habsolute, if_pos habsolute]
    exact .pure (.refl process)
  rw [if_neg habsolute, if_neg habsolute]
  apply Simulates.bind (test_simulates sys _ name process)
  intro here p hp
  by_cases hhere : here.isSome = true
  · rw [if_pos hhere, if_pos hhere]
    exact .pure hp
  rw [if_neg hhere, if_neg hhere]
  apply Simulates.bind_lift
  intro elf _
  apply Simulates.bind_lift
  intro dyn _
  apply Simulates.bind_lift
  intro string _
  -- DT_RPATH, the environment, DT_RUNPATH, /lib/ and /usr/lib/
  apply place_simulates hp (search_paths_simulates sys _ _ name _ p)
  intro q hq
  apply place_simulates hq (search_environment_simulates (hshows.copies hq) name)
  intro r hr
  apply place_simulates hr (search_paths_simulates sys _ _ name _ r)
  intro s hs
  apply place_simulates hs (test_simulates sys _ name s)
  intro t ht
  apply place_simulates ht (test_simulates sys _ name t)
  intro u _
  rfl

end Environment

section Table

variable {res : List CString}

/-- The slots of a table that grows by one. -/
theorem range_push (res : List CString) (name : CString) :
    List.range res.length ++ [res.length] = List.range (res ++ [name]).length := by
  rw [List.length_append, List.length_singleton, List.range_succ]

/-- The table's slots up to its end were written, in order, and the search may
go on: LD_LIBRARY_PATH is still what it was. -/
structure Filled (sys : System) (start : Process) (res : List CString) (process : Process) : Prop where
  buffers : start.buffers <+: process.buffers
  slots : process.slots = List.range res.length
  shows : Shows sys (.lit "LD_LIBRARY_PATH") process

theorem Filled.copies {start p q : Process} (h : Filled sys start res p) (hcopies : Copies p q) :
    Filled sys start res q where
  buffers := h.buffers.trans hcopies.buffers
  slots := hcopies.slots.trans h.slots
  shows := h.shows.copies hcopies

theorem Filled.push {start p : Process} (h : Filled sys start res p) (name : CString) :
    Filled sys start (res ++ [name]) { p with slots := p.slots ++ [res.length] } where
  buffers := h.buffers
  slots := by
    rw [h.slots, range_push]
  shows := ⟨h.shows.length, h.shows.value⟩

theorem fill_needed_simulates {start : Process} (object : CString) (dynstr : List Byte) (dynamic : List elf.Dyn)
    (h : Filled sys start res process) :
    Simulates (fill_needed sys object dynstr dynamic res) process (dependency.fill_needed sys object dynstr dynamic res)
      (Filled sys start) := by
  induction dynamic generalizing process res with
  | nil => rfl
  | cons dyn rest ih =>
    rw [fill_needed, dependency.fill_needed]
    by_cases hnull : dyn.d_tag = elf.DT_NULL
    · rw [if_pos hnull, if_pos hnull]
      exact .pure h
    rw [if_neg hnull, if_neg hnull]
    by_cases hneeded : dyn.d_tag = elf.DT_NEEDED
    · rw [if_pos hneeded, if_pos hneeded]
      apply Simulates.bind_lift
      intro needed _
      apply Simulates.bind (get_lib_absolute_path_simulates h.shows needed object)
      intro name p hp
      by_cases hin : is_in res name = true
      · rw [if_pos hin, if_pos hin]
        exact ih (h.copies hp)
      · rw [if_neg hin, if_neg hin]
        apply Simulates.step rfl
        exact ih ((h.copies hp).push name)
    · rw [if_neg hneeded, if_neg hneeded]
      exact ih h

theorem fill_dependency_simulates {start : Process} (fuel i : Nat) (h : Filled sys start res process) :
    Simulates (fill_dependency sys fuel i res) process (dependency.fill_dependency sys fuel i res) (Filled sys start) := by
  induction fuel generalizing process res i with
  | zero =>
    rw [fill_dependency, dependency.fill_dependency]
    cases res[i]? with
    | none => exact .pure h
    | some object => rfl
  | succ fuel ih =>
    rw [fill_dependency, dependency.fill_dependency]
    cases res[i]? with
    | none => exact .pure h
    | some object =>
      apply Simulates.bind_lift
      intro elf _
      apply Simulates.bind_lift
      intro dynamic _
      apply Simulates.bind_lift
      intro dynstr _
      apply Simulates.bind (fill_needed_simulates object _ _ h)
      intro more p hp
      exact ih _ hp

theorem fill_rounds_simulates {start : Process} (fuel rounds : Nat) (h : Filled sys start res process) :
    Simulates (fill_rounds sys fuel rounds res) process (dependency.fill_rounds sys fuel rounds res) (Filled sys start) := by
  induction rounds generalizing process res with
  | zero => rfl
  | succ rounds ih =>
    rw [fill_rounds, dependency.fill_rounds]
    apply Simulates.bind (fill_dependency_simulates fuel 0 h)
    intro more p hp
    by_cases hgrown : res.length ≠ more.length
    · rw [if_pos hgrown, if_pos hgrown]
      exact ih hp
    · rw [if_neg hgrown, if_neg hgrown]
      exact .pure hp

end Table

end ldso.process
