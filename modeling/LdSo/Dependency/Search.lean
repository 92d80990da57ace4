import LdSo.Dependency.Environment
import LdSo.Dependency.Table
import LdSo.Libc.Tokens

open cmodel

namespace ldso.dependency

open elf elf_manipulation string utility
open process (Extends get_env_value_eq_find)

/-- The pieces of a path list between the delimiters. -/
def directories (path : CString) : List CString :=
  (path.chars.splitOnP (· ∈ delimiters.chars)).map fun piece =>
    ⟨piece.takeWhile (· ≠ 0#8), fun hmem => by simpa using List.mem_takeWhile_imp hmem⟩

/-- A name in a directory, with one '/' between them. -/
def entry (name dir : CString) : CString :=
  if dir.chars.getLast? = some 0x2f#8 then dir.append name else (dir.append (.lit "/")).append name

/-- The file can be opened. -/
def opens (sys : System) (path : CString) : Bool := (sys.file path).isSome

/-- The first file that can be opened under a name in some directories. -/
def first_hit (sys : System) (name : CString) (dirs : List CString) : Option CString :=
  (dirs.map (entry name)).find? (opens sys)

/-- The value of a variable: what stands behind name and '=' in the first entry
that begins with them. -/
def variable_value (envp : List CString) (name : CString) : Option CString :=
  (envp.find? fun e => name.chars ++ [0x3d#8] <+: e.chars).map fun e => e.drop (name.chars.length + 1)

/-- What the search returns for its first hit. -/
def resolved : Option CString → Outcome CString
  | some res => .ok res
  | none => .exit 1

/-- The documented search: an absolute name as it is, otherwise the name itself
when it can be opened from the working directory, otherwise the first hit in the
directories of the paths, /lib and /usr/lib. -/
def documented (sys : System) (name : CString) (paths : List CString) : Outcome CString :=
  if name.chars.head? = some 0x2f#8 then .ok name
  else if opens sys (entry name (.lit ".")) then .ok name
  else resolved (first_hit sys name (paths.flatMap directories ++ [.lit "/lib", .lit "/usr/lib"]))

/-- The strings of the dynamic entries with a tag, in order. -/
def tagged_strings (tag : BitVec 64) (dynstr : List Byte) : List Dyn → Outcome (List CString)
  | [] => .fault
  | dyn :: rest =>
    if dyn.d_tag = DT_NULL then .ok []
    else if dyn.d_tag = tag then do
      let s ← CString.read dynstr dyn.d_val.toNat
      let more ← tagged_strings tag dynstr rest
      return s :: more
    else tagged_strings tag dynstr rest

/-- A path list has directories in it, and none is empty. -/
abbrev PathList (path : CString) : Prop := NoEmptyPiece (· ∈ delimiters.chars) path.chars

/-- An object whose dynamic section can be read, with its DT_RPATH and DT_RUNPATH entries. -/
structure Requester (sys : System) (binary : CString) where
  rpath : List CString
  runpath : List CString
  elf : Ehdr
  dyn : Option (List Byte)
  string : Option (List Byte)
  elf_eq : get_elf_ehdr sys binary = .ok elf
  dyn_eq : get_section sys elf binary (.lit ".dynamic") = .ok dyn
  string_eq : get_section sys elf binary (.lit ".dynstr") = .ok string
  rpath_eq : tagged_strings DT_RPATH (string.getD []) (dyns (dyn.getD [])) = .ok rpath
  runpath_eq : tagged_strings DT_RUNPATH (string.getD []) (dyns (dyn.getD [])) = .ok runpath
  rpath_list : ∀ path ∈ rpath, PathList path
  runpath_list : ∀ path ∈ runpath, PathList path

variable {sys : System} {name path : CString} {dirs : List CString}

theorem strtok_tokens_eq_directories (path : CString) : strtok_tokens path delimiters = directories path := by
  rw [directories, ← strtok_tokens_eq_splitOnP, List.map_map]
  symm
  apply List.map_id''
  intro token
  ext1
  have hall : ∀ c ∈ token.chars, decide (c ≠ 0#8) = true := by
    intro c hc
    rw [decide_eq_true_eq]
    rintro rfl
    exact token.nonul hc
  exact List.takeWhile_eq_self_iff.mpr hall

theorem PathList.directories_ne (h : PathList path) : ∀ dir ∈ directories path, dir.chars ≠ [] := by
  intro dir hdir hnil
  rw [← strtok_tokens_eq_directories] at hdir
  have hmem := List.mem_map_of_mem (f := CString.chars) hdir
  rw [strtok_tokens_eq_splitOnP, hnil] at hmem
  exact nil_notMem_splitOnP.mpr h hmem

/-- On a directory, `concatenate` inserts '/' as documented. -/
theorem concatenate_eq {dir : CString} (hdir : dir.chars ≠ []) : concatenate dir name = .ok (entry name dir) := by
  unfold concatenate entry
  cases hlast : dir.chars.getLast? with
  | none => exact absurd (List.getLast?_eq_none_iff.mp hlast) hdir
  | some c =>
    by_cases hslash : c = 0x2f#8
    · simp [hslash]
    · simp [hslash]

theorem first_hit_append (sys : System) (name : CString) (front back : List CString) :
    first_hit sys name (front ++ back) = (first_hit sys name front).or (first_hit sys name back) := by
  unfold first_hit
  rw [List.map_append, List.find?_append]

/-- The directories in front of the first empty one. -/
def usable (dirs : List CString) : List CString := dirs.takeWhile fun dir => dir.chars ≠ []

/-- The loop of `test`: it returns the first hit, unless it meets an empty
directory before that. -/
theorem test_directories_eq (sys : System) (name : CString) (dirs : List CString) : test_directories sys name dirs =
    if (first_hit sys name (usable dirs)).isSome ∨ usable dirs = dirs then .ok (first_hit sys name (usable dirs)) else .fault := by
  induction dirs with
  | nil => rfl
  | cons dir dirs ih =>
    rw [test_directories]
    by_cases hdir : dir.chars = []
    · have hnone : usable (dir :: dirs) = [] := List.takeWhile_cons_of_neg (by simpa using hdir)
      have hfault : concatenate dir name = .fault := by simp [concatenate, hdir]
      rw [hnone, hfault, if_neg (by simp [first_hit])]
      rfl
    · have hcons : usable (dir :: dirs) = dir :: usable dirs := List.takeWhile_cons_of_pos (by simpa using hdir)
      rw [hcons, concatenate_eq hdir, Outcome.ok_bind]
      by_cases hopen : (sys.file (entry name dir)).isSome = true
      · have hhit : first_hit sys name (dir :: usable dirs) = some (entry name dir) := List.find?_cons_of_pos hopen
        rw [if_pos hopen, hhit, if_pos (by simp)]
        rfl
      · have hmiss : first_hit sys name (dir :: usable dirs) = first_hit sys name (usable dirs) :=
          List.find?_cons_of_neg hopen
        simp only [if_neg hopen, hmiss, ih, List.cons_inj_right]

theorem test_eq_of_ne (hne : path.chars ≠ []) (hdirs : ∀ dir ∈ directories path, dir.chars ≠ []) :
    test sys path name = .ok (first_hit sys name (directories path)) := by
  have husable : usable (directories path) = directories path := List.takeWhile_eq_self_iff.mpr (by simpa using hdirs)
  rw [test, strdup_of_ne_nil hne, Outcome.ok_bind, strtok_tokens_eq_directories, test_directories_eq, husable,
    if_pos (.inr rfl)]

theorem test_eq_of_pathList (h : PathList path) : test sys path name = .ok (first_hit sys name (directories path)) :=
  test_eq_of_ne h.ne_nil h.directories_ne

/-- The loop over the dynamic section tries the paths with the tag in order. -/
theorem search_paths_eq {tag : BitVec 64} {dynstr : List Byte} {dynamic : List Dyn} {paths : List CString}
    (hpaths : tagged_strings tag dynstr dynamic = .ok paths) (hlist : ∀ path ∈ paths, PathList path) :
    search_paths sys tag dynstr name dynamic = .ok (first_hit sys name (paths.flatMap directories)) := by
  induction dynamic generalizing paths with
  | nil => cases hpaths
  | cons dyn rest ih =>
    unfold tagged_strings at hpaths
    unfold search_paths
    by_cases hnull : dyn.d_tag = DT_NULL
    · rw [if_pos hnull] at hpaths ⊢
      cases hpaths
      rfl
    rw [if_neg hnull] at hpaths ⊢
    by_cases htag : dyn.d_tag = tag
    · rw [if_pos htag] at hpaths ⊢
      obtain ⟨path, hpath, hpaths⟩ := Outcome.bind_eq_ok_iff.mp hpaths
      obtain ⟨more, hmore, hpaths⟩ := Outcome.bind_eq_ok_iff.mp hpaths
      cases hpaths
      obtain ⟨hhead, htail⟩ := List.forall_mem_cons.mp hlist
      rw [hpath, Outcome.ok_bind, test_eq_of_pathList hhead, Outcome.ok_bind, ih hmore htail, List.flatMap_cons,
        first_hit_append]
      cases first_hit sys name (directories path) <;> rfl
    · rw [if_neg htag] at hpaths ⊢
      exact ih hpaths hlist

/-- The search in the working directory. -/
theorem test_here (sys : System) (name : CString) :
    test sys (.lit ".") name = .ok (if opens sys (entry name (.lit ".")) then some (entry name (.lit ".")) else none) := by
  have hdirs : directories (.lit ".") = [.lit "."] ∧ (CString.lit ".").chars ≠ [] := by decide +kernel
  rw [test_eq_of_ne hdirs.2 (by rw [hdirs.1]; simpa using hdirs.2), hdirs.1]
  unfold first_hit
  by_cases hopen : opens sys (entry name (.lit ".")) = true
  · rw [if_pos hopen, List.map_singleton, List.find?_cons_of_pos hopen]
  · rw [if_neg hopen, List.map_singleton, List.find?_cons_of_neg hopen]
    rfl

/-- The standard directories are written with a '/' at their end. -/
theorem test_lib (sys : System) (name : CString) :
    test sys (.lit "/lib/") name = .ok (first_hit sys name [.lit "/lib"]) ∧
    test sys (.lit "/usr/lib/") name = .ok (first_hit sys name [.lit "/usr/lib"]) := by
  have hlib : directories (.lit "/lib/") = [.lit "/lib/"] ∧ (CString.lit "/lib/").chars ≠ [] ∧
      (CString.lit "/lib/").chars.getLast? = some 0x2f#8 ∧ (CString.lit "/lib").chars.getLast? ≠ some 0x2f#8 ∧
      CString.lit "/lib/" = (CString.lit "/lib").append (.lit "/") := by decide +kernel
  have husr : directories (.lit "/usr/lib/") = [.lit "/usr/lib/"] ∧ (CString.lit "/usr/lib/").chars ≠ [] ∧
      (CString.lit "/usr/lib/").chars.getLast? = some 0x2f#8 ∧ (CString.lit "/usr/lib").chars.getLast? ≠ some 0x2f#8 ∧
      CString.lit "/usr/lib/" = (CString.lit "/usr/lib").append (.lit "/") := by decide +kernel
  have hslash : ∀ dir dir' : CString, dir'.chars.getLast? = some 0x2f#8 → dir.chars.getLast? ≠ some 0x2f#8 →
      dir' = dir.append (.lit "/") → entry name dir' = entry name dir := by
    intro dir dir' hend hend' happend
    rw [entry, entry, if_pos hend, if_neg hend', happend]
  constructor
  · rw [test_eq_of_ne hlib.2.1 (by rw [hlib.1]; simpa using hlib.2.1), hlib.1, first_hit, first_hit,
      List.map_singleton, List.map_singleton, hslash _ _ hlib.2.2.1 hlib.2.2.2.1 hlib.2.2.2.2]
  · rw [test_eq_of_ne husr.2.1 (by rw [husr.1]; simpa using husr.2.1), husr.1, first_hit, first_hit,
      List.map_singleton, List.map_singleton, hslash _ _ husr.2.2.1 husr.2.2.2.1 husr.2.2.2.2]

/-- What is searched behind LD_LIBRARY_PATH. -/
def later (runpath : List CString) : List CString := runpath.flatMap directories ++ [.lit "/lib", .lit "/usr/lib"]

/-- The search is decided before the environment is looked at. -/
def DecidedBefore (sys : System) (name : CString) (rpath : List CString) : Prop :=
  name.chars.head? = some 0x2f#8 ∨ opens sys (entry name (.lit ".")) = true ∨
    (first_hit sys name (rpath.flatMap directories)).isSome = true

/-- When the search comes to the environment, what it finds there goes first. -/
theorem get_lib_absolute_path_not_before {binary : CString} (r : Requester sys binary)
    (hbefore : ¬ DecidedBefore sys name r.rpath) :
    get_lib_absolute_path sys name binary =
      search_environment sys name >>= fun res => resolved (res.or (first_hit sys name (later r.runpath))) := by
  simp only [DecidedBefore, not_or] at hbefore
  obtain ⟨habsolute, hhere, hrpath⟩ := hbefore
  have hmiss : first_hit sys name (r.rpath.flatMap directories) = none := by simpa using hrpath
  rw [get_lib_absolute_path, if_neg habsolute, test_here, if_neg hhere, r.elf_eq]
  simp only [Outcome.ok_bind, r.dyn_eq, r.string_eq, search_paths_eq r.rpath_eq r.rpath_list, hmiss,
    search_paths_eq r.runpath_eq r.runpath_list, (test_lib sys name).1, (test_lib sys name).2]
  simp only [Option.isSome_none, Bool.false_eq_true, if_false]
  congr 1
  funext res
  have hlater : later r.runpath = r.runpath.flatMap directories ++ ([.lit "/lib"] ++ [.lit "/usr/lib"]) := rfl
  rw [hlater, first_hit_append, first_hit_append]
  cases res with
  | some res => rfl
  | none =>
    cases first_hit sys name (r.runpath.flatMap directories) with
    | some res => rfl
    | none =>
      cases first_hit sys name [.lit "/lib"] with
      | some res => rfl
      | none => cases first_hit sys name [.lit "/usr/lib"] <;> rfl

theorem documented_not_before {rpath runpath : List CString} (hbefore : ¬ DecidedBefore sys name rpath)
    (value : Option CString) :
    documented sys name (rpath ++ value.toList ++ runpath) =
      resolved ((first_hit sys name (value.toList.flatMap directories)).or (first_hit sys name (later runpath))) := by
  simp only [DecidedBefore, not_or] at hbefore
  obtain ⟨habsolute, hhere, hrpath⟩ := hbefore
  have hmiss : first_hit sys name (rpath.flatMap directories) = none := by simpa using hrpath
  rw [documented, if_neg habsolute, if_neg hhere, List.flatMap_append, List.flatMap_append, List.append_assoc,
    List.append_assoc, first_hit_append, first_hit_append, hmiss]
  rfl

/-- Before that, the code does what is documented whatever the environment holds. -/
theorem get_lib_absolute_path_before {binary : CString} (r : Requester sys binary)
    (hbefore : DecidedBefore sys name r.rpath) (value : Option CString) :
    get_lib_absolute_path sys name binary = documented sys name (r.rpath ++ value.toList ++ r.runpath) := by
  rw [get_lib_absolute_path, documented]
  by_cases habsolute : name.chars.head? = some 0x2f#8
  · rw [if_pos habsolute, if_pos habsolute]
    rfl
  rw [if_neg habsolute, if_neg habsolute, test_here, Outcome.ok_bind]
  by_cases hhere : opens sys (entry name (.lit ".")) = true
  · rw [if_pos hhere, if_pos hhere]
    rfl
  rw [if_neg hhere, if_neg hhere, r.elf_eq]
  obtain ⟨res, hres⟩ := Option.isSome_iff_exists.mp ((hbefore.resolve_left habsolute).resolve_left hhere)
  simp only [Outcome.ok_bind, r.dyn_eq, r.string_eq, search_paths_eq r.rpath_eq r.rpath_list, hres]
  rw [List.flatMap_append, List.flatMap_append, List.append_assoc, List.append_assoc, first_hit_append, hres]
  rfl

/-- When the first element that meets the weaker condition meets the stronger one, both find it. -/
theorem find_eq_of_imp {α : Type} {p q : α → Bool} {as : List α} (himp : ∀ a, p a = true → q a = true)
    (hfirst : ∀ a ∈ as.find? q, p a = true) : as.find? p = as.find? q := by
  induction as with
  | nil => rfl
  | cons a as ih =>
    by_cases hq : q a = true
    · rw [List.find?_cons_of_pos hq] at hfirst ⊢
      rw [List.find?_cons_of_pos (hfirst a rfl)]
    · rw [List.find?_cons_of_neg hq] at hfirst ⊢
      rw [List.find?_cons_of_neg (fun hp => hq (himp a hp))]
      exact ih hfirst

/-- An entry assigns a value to a variable when it extends its name and goes on with '='. -/
theorem assigns_iff {name e : CString} :
    name.chars ++ [0x3d#8] <+: e.chars ↔ Extends name e ∧ e.chars[name.chars.length]? = some 0x3d#8 := by
  rw [← process.exists_assigns_iff]
  constructor
  · rintro ⟨tail, htail⟩
    refine ⟨⟨tail, fun hmem => e.nonul ?_⟩, ?_⟩
    · rw [← htail]
      exact List.mem_append_right _ hmem
    · exact htail.symm.trans (List.append_assoc name.chars [0x3d#8] tail)
  · rintro ⟨value, h⟩
    rw [h]
    exact ⟨value.chars, by rw [List.append_assoc]; rfl⟩

/-- The entry that the search takes for a variable is the variable's own. -/
def Own (envp : List CString) (name : CString) : Prop :=
  ∀ e ∈ envp.find? fun e => Extends name e, e.chars[name.chars.length]? = some 0x3d#8

theorem variable_value_eq {envp : List CString} {name : CString} (h : Own envp name) :
    variable_value envp name = (envp.find? fun e => Extends name e).map fun e => e.drop (name.chars.length + 1) := by
  rw [variable_value, find_eq_of_imp]
  · intro e he
    simpa using (assigns_iff.mp (by simpa using he)).1
  · intro e he
    have hext : Extends name e := by simpa using List.find?_some he
    simpa using assigns_iff.mpr ⟨hext, h e he⟩

/-- The text taken for a path list leads to the same file as the directories of
the list itself: it can be copied, no empty piece of it stands before a hit, and
with what is searched behind it, the first hit is the same. -/
def SameHit (sys : System) (name text : CString) (dirs later : List CString) : Prop :=
  ∃ copy, strdup sys text = .ok copy ∧
    ((first_hit sys name (usable (directories copy))).isSome = true ∨ usable (directories copy) = directories copy) ∧
      first_hit sys name (usable (directories copy) ++ later) = first_hit sys name (dirs ++ later)

theorem resolved_inj {a b : Option CString} : resolved a = resolved b ↔ a = b := by
  cases a <;> cases b <;> simp [resolved]

theorem resolved_ne_fault (a : Option CString) : resolved a ≠ .fault := by
  cases a <;> simp [resolved]

theorem strdup_ok_or_fault (sys : System) (text : CString) :
    (∃ copy, strdup sys text = .ok copy) ∨ strdup sys text = .fault := by
  unfold strdup CString.read
  split
  · split
    · exact .inl ⟨_, rfl⟩
    · exact .inr rfl
  · exact .inl ⟨_, rfl⟩

theorem bind_test_eq_iff {text : CString} {dirs later : List CString} :
    (test sys text name >>= fun res => resolved (res.or (first_hit sys name later))) =
      resolved ((first_hit sys name dirs).or (first_hit sys name later)) ↔ SameHit sys name text dirs later := by
  unfold SameHit
  obtain ⟨copy, hcopy⟩ | hfault := strdup_ok_or_fault sys text
  · simp only [test, hcopy, Outcome.ok_bind, strtok_tokens_eq_directories, test_directories_eq, Outcome.ok.injEq,
      exists_eq_left', first_hit_append]
    by_cases hsafe : (first_hit sys name (usable (directories copy))).isSome = true ∨
      usable (directories copy) = directories copy
    · rw [if_pos hsafe, Outcome.ok_bind, resolved_inj]
      exact (and_iff_right hsafe).symm
    · rw [if_neg hsafe, Outcome.fault_bind]
      constructor
      · intro h
        exact absurd h.symm (resolved_ne_fault _)
      · rintro ⟨h, -⟩
        exact absurd h hsafe
  · simp only [test, hfault, Outcome.fault_bind, reduceCtorEq, false_and, exists_false, iff_false]
    exact (resolved_ne_fault _).symm

/-- `get_lib_absolute_path` does the documented search exactly when it is decided
before the environment is looked at, or what is taken for LD_LIBRARY_PATH is the
variable's own value, or it leads to the same file. -/
theorem get_lib_absolute_path_documented_iff {binary : CString} (r : Requester sys binary)
    (hlibrary : ∀ path ∈ variable_value sys.envp (.lit "LD_LIBRARY_PATH"), PathList path) :
    get_lib_absolute_path sys name binary =
        documented sys name (r.rpath ++ (variable_value sys.envp (.lit "LD_LIBRARY_PATH")).toList ++ r.runpath) ↔
      DecidedBefore sys name r.rpath ∨ Own sys.envp (.lit "LD_LIBRARY_PATH") ∨
        ∃ e ∈ sys.envp.find? fun e => Extends (.lit "LD_LIBRARY_PATH") e,
          SameHit sys name (e.drop ((CString.lit "LD_LIBRARY_PATH").chars.length + 1))
            ((variable_value sys.envp (.lit "LD_LIBRARY_PATH")).toList.flatMap directories) (later r.runpath) := by
  by_cases hbefore : DecidedBefore sys name r.rpath
  · simp only [hbefore, true_or, iff_true]
    exact get_lib_absolute_path_before r hbefore _
  rw [get_lib_absolute_path_not_before r hbefore, documented_not_before hbefore, search_environment,
    get_env_value_eq_find, Outcome.ok_bind]
  simp only [hbefore, false_or]
  by_cases hown : Own sys.envp (.lit "LD_LIBRARY_PATH")
  · simp only [hown, true_or, iff_true]
    rw [variable_value_eq hown] at hlibrary ⊢
    cases hfind : sys.envp.find? fun e => Extends (.lit "LD_LIBRARY_PATH") e with
    | none => rfl
    | some e =>
      rw [hfind] at hlibrary
      simp only [Option.map_some, test_eq_of_pathList (hlibrary _ rfl), Outcome.ok_bind]
      simp
  · simp only [hown, false_or]
    cases hfind : sys.envp.find? fun e => Extends (.lit "LD_LIBRARY_PATH") e with
    | none =>
      refine absurd ?_ hown
      intro e he
      rw [hfind] at he
      cases he
    | some e =>
      simp only [Option.map_some, Option.mem_def, Option.some.injEq, exists_eq_left']
      exact bind_test_eq_iff

section Sample

/-- An object that needs nothing, and a library in /a. -/
def library_sys (envp : List CString) : System where
  __ := System.of_files [(.lit "/b", needing none), (.lit "/a/libm", [])]
  envp := envp

theorem library_read : get_elf_ehdr (library_sys []) (.lit "/b") = .ok (Ehdr.decode (needing none)) ∧
    get_section (library_sys []) (Ehdr.decode (needing none)) (.lit "/b") (.lit ".dynamic") = .ok (some (Dyn.encode ⟨DT_NULL, 0⟩)) ∧
      get_section (library_sys []) (Ehdr.decode (needing none)) (.lit "/b") (.lit ".dynstr") = .ok (some [0#8]) := by decide +kernel

def library_requester (envp : List CString) : Requester (library_sys envp) (.lit "/b") :=
  have hsame : System.SameFile (library_sys envp) (library_sys []) (.lit "/b") := ⟨by decide, rfl, rfl⟩
  {
    rpath := []
    runpath := []
    elf := Ehdr.decode (needing none)
    dyn := some (Dyn.encode ⟨DT_NULL, 0⟩)
    string := some [0#8]
    elf_eq := hsame.get_elf_ehdr_eq.trans library_read.1
    dyn_eq := (hsame.get_section_eq _ _).trans library_read.2.1
    string_eq := (hsame.get_section_eq _ _).trans library_read.2.2
    rpath_eq := by decide +kernel
    runpath_eq := by decide +kernel
    rpath_list := by simp
    runpath_list := by simp }

/-- With LD_LIBRARY_PATH alone in the environment the library is found. -/
theorem get_lib_absolute_path_own :
    get_lib_absolute_path (library_sys [.lit "LD_LIBRARY_PATH=/a"]) (.lit "libm") (.lit "/b") =
      documented (library_sys [.lit "LD_LIBRARY_PATH=/a"]) (.lit "libm") [.lit "/a"] := by
  have hvalue : variable_value (library_sys [.lit "LD_LIBRARY_PATH=/a"]).envp (.lit "LD_LIBRARY_PATH") = some (.lit "/a") := by
    decide +kernel
  have hlist : PathList (.lit "/a") := nil_notMem_splitOnP.mp (by decide +kernel)
  have hlibrary : ∀ path ∈ variable_value (library_sys [.lit "LD_LIBRARY_PATH=/a"]).envp (.lit "LD_LIBRARY_PATH"), PathList path := by
    rw [hvalue]
    rintro path ⟨⟩
    exact hlist
  have hown : Own (library_sys [.lit "LD_LIBRARY_PATH=/a"]).envp (.lit "LD_LIBRARY_PATH") := by
    unfold Own
    decide +kernel
  have hsearch : get_lib_absolute_path _ (.lit "libm") _ = _ :=
    (get_lib_absolute_path_documented_iff (library_requester _) hlibrary).mpr (.inr (.inl hown))
  rw [hvalue] at hsearch
  exact hsearch

def hidden_envp : List CString := [.lit "LD_LIBRARY_PATH_OLD=/x", .lit "LD_LIBRARY_PATH=/a"]

/-- LD_LIBRARY_PATH_OLD in front of it hides LD_LIBRARY_PATH. -/
theorem get_lib_absolute_path_hidden :
    get_lib_absolute_path (library_sys hidden_envp) (.lit "libm") (.lit "/b") = .exit 1 ∧
      documented (library_sys hidden_envp) (.lit "libm") ((library_requester hidden_envp).rpath ++
        (variable_value hidden_envp (.lit "LD_LIBRARY_PATH")).toList ++ (library_requester hidden_envp).runpath) =
          .ok (.lit "/a/libm") := by decide +kernel

end Sample

end ldso.dependency
