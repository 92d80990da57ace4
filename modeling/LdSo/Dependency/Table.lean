import LdSo.Dependency
import LdSo.Elf.Image

open cmodel

namespace ldso.dependency

open elf elf_manipulation string display_auxv

/-- The DT_NEEDED names of a dynamic section, in order. -/
def needed_names (dynstr : List Byte) : List Dyn → Outcome (List CString)
  | [] => .fault
  | dyn :: rest =>
    if dyn.d_tag = DT_NULL then .ok []
    else if dyn.d_tag = DT_NEEDED then do
      let name ← CString.read dynstr dyn.d_val.toNat
      let names ← needed_names dynstr rest
      return name :: names
    else needed_names dynstr rest

/-- The DT_NEEDED names of an object's file. -/
def needed (sys : System) (object : CString) : Outcome (List CString) := do
  let elf ← get_elf_ehdr sys object
  let dynamic ← get_section sys elf object (.lit ".dynamic")
  let dynstr ← get_section sys elf object (.lit ".dynstr")
  needed_names (dynstr.getD []) (dyns (dynamic.getD []))

/-- A finite graph of shared objects: the names that each object needs, and the
object of the graph that each of them resolves to. -/
structure ObjectGraph (sys : System) where
  objects : Finset CString
  names : CString → List CString
  path : CString → CString → CString
  needed_eq : ∀ o ∈ objects, needed sys o = .ok (names o)
  resolves : ∀ o ∈ objects, ∀ n ∈ names o, get_lib_absolute_path sys n o = .ok (path o n)
  closed : ∀ o ∈ objects, ∀ n ∈ names o, path o n ∈ objects

/-- What an object's DT_NEEDED entries resolve to. -/
def ObjectGraph.children {sys : System} (g : ObjectGraph sys) (o : CString) : List CString :=
  (g.names o).map (g.path o)

/-- The elements that LD_PRELOAD lists: the pieces of its value between the
delimiters, or none when it is not set. -/
def Preloads (sys : System) (elements : List CString) : Prop :=
  (get_env_value sys.envp (.lit "LD_PRELOAD") = .ok none ∧ elements = []) ∨
    ∃ value, get_env_value sys.envp (.lit "LD_PRELOAD") = .ok (some value) ∧
      value.chars.splitOnP (· ∈ delimiters.chars) = elements.map CString.chars

variable {sys : System}

/-- What an object's file needs is the same for every system that has the file. -/
theorem needed_sameFile {sys' : System} {object : CString} (h : System.SameFile sys' sys object) :
    needed sys' object = needed sys object := by
  unfold needed
  simp only [h.get_elf_ehdr_eq, h.get_section_eq]

theorem preload_eq {elements : List CString} (h : Preloads sys elements) : preload sys = .ok elements := by
  obtain ⟨hvalue, rfl⟩ | ⟨value, hvalue, hsplit⟩ := h
  · simp [preload, hvalue]
  · have htokens : strtok_tokens value delimiters = elements := by
      have hchars := strtok_tokens_eq_splitOnP value delimiters
      rw [hsplit] at hchars
      exact List.map_injective_iff.mpr (fun _ _ => CString.ext) hchars
    simp [preload, hvalue, htokens]

theorem is_in_iff {res : List CString} {name : CString} : is_in res name = true ↔ name ∈ res := by
  simp [is_in]

/-- The loop over a dynamic section adds what its DT_NEEDED entries resolve to. -/
theorem fill_needed_eq {object : CString} {dynstr : List Byte} {dynamic : List Dyn} {names : List CString}
    {path : CString → CString} (hnames : needed_names dynstr dynamic = .ok names)
    (hpath : ∀ n ∈ names, get_lib_absolute_path sys n object = .ok (path n)) (res : List CString) :
    fill_needed sys object dynstr dynamic res = .ok ((names.map path).foldl addNew res) := by
  induction dynamic generalizing names res with
  | nil => cases hnames
  | cons dyn rest ih =>
    unfold needed_names at hnames
    unfold fill_needed
    by_cases hnull : dyn.d_tag = DT_NULL
    · rw [if_pos hnull] at hnames ⊢
      cases hnames
      rfl
    · rw [if_neg hnull] at hnames ⊢
      by_cases hneeded : dyn.d_tag = DT_NEEDED
      · rw [if_pos hneeded] at hnames ⊢
        obtain ⟨name, hname, hnames⟩ := Outcome.bind_eq_ok_iff.mp hnames
        obtain ⟨more, hmore, hnames⟩ := Outcome.bind_eq_ok_iff.mp hnames
        cases hnames
        rw [hname, Outcome.ok_bind, hpath name (by simp), Outcome.ok_bind,
          ih hmore fun n hn => hpath n (by simp [hn])]
        simp only [List.map_cons, List.foldl_cons, addNew, is_in_iff]
      · rw [if_neg hneeded] at hnames ⊢
        exact ih hnames hpath res

section Graph

variable (g : ObjectGraph sys)

theorem ObjectGraph.children_mem {o c : CString} (ho : o ∈ g.objects) (hc : c ∈ g.children o) : c ∈ g.objects := by
  obtain ⟨n, hn, rfl⟩ := List.mem_map.mp hc
  exact g.closed o ho n hn

/-- On a table of objects of the graph, `fill_dependency` is the scan that adds
the children of each. -/
theorem fill_dependency_eq {fuel i : Nat} {res table : List CString} (hres : ∀ o ∈ res, o ∈ g.objects)
    (hscan : scan g.children fuel i res = some table) : fill_dependency sys fuel i res = .ok table := by
  induction fuel generalizing i res with
  | zero =>
    unfold scan at hscan
    unfold fill_dependency
    cases ho : res[i]? with
    | none => simpa [ho] using hscan
    | some object => simp [ho] at hscan
  | succ fuel ih =>
    unfold scan at hscan
    unfold fill_dependency
    cases ho : res[i]? with
    | none => simpa [ho] using hscan
    | some object =>
      have hobject := hres object (List.mem_of_getElem? ho)
      have hneeded := g.needed_eq object hobject
      obtain ⟨elf, helf, hneeded⟩ := Outcome.bind_eq_ok_iff.mp hneeded
      obtain ⟨dynamic, hdynamic, hneeded⟩ := Outcome.bind_eq_ok_iff.mp hneeded
      obtain ⟨dynstr, hdynstr, hneeded⟩ := Outcome.bind_eq_ok_iff.mp hneeded
      simp only [ho] at hscan
      simp only [helf, hdynamic, hdynstr, Outcome.ok_bind, fill_needed_eq hneeded (g.resolves object hobject)]
      refine ih ?_ hscan
      intro o ho
      obtain ho | ho := mem_foldl_addNew.mp ho
      · exact hres o ho
      · exact g.children_mem hobject ho

/-- Two rounds are enough: the second one adds nothing. -/
theorem fill_rounds_eq {seeds D : List CString} (hseeds : ∀ o ∈ seeds, o ∈ g.objects) {fuel : Nat}
    (hscan : scan g.children fuel 0 seeds = some (seeds ++ D)) (hD : BreadthFirst g.children seeds D)
    (hfuel : (seeds ++ D).length ≤ fuel) (rounds : Nat) :
    fill_rounds sys fuel (rounds + 2) seeds = .ok (seeds ++ D) := by
  have hobjects : ∀ o ∈ seeds ++ D, o ∈ g.objects := by
    intro o ho
    obtain ⟨k, hwalk⟩ := hD.reached o ho
    exact hwalk.mem hseeds fun u hu c hc => g.children_mem hu hc
  have hfirst := fill_dependency_eq g hseeds hscan
  have hsecond : fill_dependency sys fuel 0 (seeds ++ D) = .ok (seeds ++ D) :=
    fill_dependency_eq g hobjects (scan_closed hD.closed (by omega))
  rw [fill_rounds, hfirst, Outcome.ok_bind]
  by_cases hsame : seeds.length = (seeds ++ D).length
  · rw [if_neg (by simpa using hsame)]
    rfl
  · rw [if_pos hsame, fill_rounds, hsecond, Outcome.ok_bind, if_neg (by simp)]
    rfl

/-- For every finite graph of shared objects, executable and LD_PRELOAD list:
`build_dependency_table` ends, with `fill_dependency` run at most twice, and
its table is the executable, "ld.so", the LD_PRELOAD elements, then what they
need in breadth-first order, then the vdso when there is one. -/
theorem build_dependency_table_eq {executable_name : CString} {elements : List CString}
    (hpreload : Preloads sys elements)
    (hseeds : ∀ o ∈ [executable_name, .lit "ld.so"] ++ elements, o ∈ g.objects) :
    ∃ D, BreadthFirst g.children ([executable_name, .lit "ld.so"] ++ elements) D ∧
      ∃ bound, ∀ fuel ≥ bound, ∀ rounds ≥ 2, build_dependency_table sys rounds fuel executable_name =
        .ok ([executable_name, .lit "ld.so"] ++ elements ++ D ++
          if sys.vdso.isSome then [.lit "linux-vdso.so.1"] else []) := by
  obtain ⟨D, hscan, hD⟩ := scan_breadthFirst hseeds (fun u hu c hc => g.children_mem hu hc) le_rfl
  refine ⟨D, hD, max (([executable_name, .lit "ld.so"] ++ elements).length + g.objects.card)
    ([executable_name, .lit "ld.so"] ++ elements ++ D).length, ?_⟩
  intro fuel hfuel rounds hrounds
  obtain ⟨rounds, rfl⟩ := Nat.exists_eq_add_of_le' hrounds
  have hfill := fill_rounds_eq g hseeds (scan_mono hscan (le_trans (le_max_left _ _) hfuel)) hD
    (le_trans (le_max_right _ _) hfuel) rounds
  unfold build_dependency_table
  rw [preload_eq hpreload, Outcome.ok_bind, hfill, Outcome.ok_bind]
  by_cases hvdso : sys.vdso.isSome = true
  · simp [hvdso]
  · simp [hvdso]

end Graph

section Shape

/-- The loop over a dynamic section only appends. -/
theorem fill_needed_appends {object : CString} {dynstr : List Byte} {dynamic : List Dyn} {res res' : List CString}
    (h : fill_needed sys object dynstr dynamic res = .ok res') : res <+: res' := by
  induction dynamic generalizing res with
  | nil => cases h
  | cons dyn rest ih =>
    rw [fill_needed] at h
    split at h
    · cases h
      exact List.prefix_refl _
    · split at h
      · obtain ⟨name, -, h⟩ := Outcome.bind_eq_ok_iff.mp h
        obtain ⟨name, -, h⟩ := Outcome.bind_eq_ok_iff.mp h
        have hrest := ih h
        split at hrest
        · exact hrest
        · exact (List.prefix_append _ _).trans hrest
      · exact ih h

/-- Nothing stands behind the end of a table. -/
theorem getElem?_behind_end {res : List CString} {i j : Nat} (hend : res[i]? = none) (hij : i ≤ j) :
    res[j]? = none := by
  have hlen := List.getElem?_eq_none_iff.mp hend
  exact List.getElem?_eq_none_iff.mpr (hlen.trans hij)

/-- `fill_dependency` only appends, and reads the header of every entry from `i` on. -/
theorem fill_dependency_scans {fuel i : Nat} {res res' : List CString}
    (h : fill_dependency sys fuel i res = .ok res') :
    res <+: res' ∧ ∀ j o, i ≤ j → res'[j]? = some o → ∃ elf, get_elf_ehdr sys o = .ok elf := by
  induction fuel generalizing i res with
  | zero =>
    rw [fill_dependency] at h
    split at h
    · next hend =>
      cases h
      refine ⟨List.prefix_refl _, fun j o hij hj => ?_⟩
      rw [getElem?_behind_end hend hij] at hj
      cases hj
    · cases h
  | succ fuel ih =>
    rw [fill_dependency] at h
    split at h
    · next hend =>
      cases h
      refine ⟨List.prefix_refl _, fun j o hij hj => ?_⟩
      rw [getElem?_behind_end hend hij] at hj
      cases hj
    · next object hobject =>
      obtain ⟨elf, helf, h⟩ := Outcome.bind_eq_ok_iff.mp h
      obtain ⟨dynamic, -, h⟩ := Outcome.bind_eq_ok_iff.mp h
      obtain ⟨dynstr, -, h⟩ := Outcome.bind_eq_ok_iff.mp h
      obtain ⟨more, hmore, h⟩ := Outcome.bind_eq_ok_iff.mp h
      obtain ⟨happends, hscans⟩ := ih h
      have hall := (fill_needed_appends hmore).trans happends
      refine ⟨hall, fun j o hij hj => ?_⟩
      obtain rfl | hlt := hij.eq_or_lt
      · obtain ⟨tail, rfl⟩ := hall
        rw [List.getElem?_append_left (List.getElem?_eq_some_iff.mp hobject).1, hobject] at hj
        cases hj
        exact ⟨elf, helf⟩
      · exact hscans j o hlt hj

theorem fill_rounds_scans {fuel rounds : Nat} {res res' : List CString}
    (h : fill_rounds sys fuel rounds res = .ok res') :
    res <+: res' ∧ ∀ o ∈ res', ∃ elf, get_elf_ehdr sys o = .ok elf := by
  induction rounds generalizing res with
  | zero => cases h
  | succ rounds ih =>
    obtain ⟨more, hmore, h⟩ := Outcome.bind_eq_ok_iff.mp h
    obtain ⟨happends, hscans⟩ := fill_dependency_scans hmore
    split at h
    · obtain ⟨happends', hscans'⟩ := ih h
      exact ⟨happends.trans happends', hscans'⟩
    · cases h
      refine ⟨happends, fun o ho => ?_⟩
      obtain ⟨j, hj⟩ := List.mem_iff_getElem?.mp ho
      exact hscans j o (Nat.zero_le j) hj

/-- Whatever the files, a table that is returned starts with the executable and
"ld.so" and ends with the vdso when there is one, and the header of every other
entry was read. -/
theorem build_dependency_table_shape {rounds fuel : Nat} {executable_name : CString} {table : List CString}
    (h : build_dependency_table sys rounds fuel executable_name = .ok table) :
    ∃ rest, table = executable_name :: .lit "ld.so" :: rest ++ (if sys.vdso.isSome then [.lit "linux-vdso.so.1"] else []) ∧
      ∀ o ∈ executable_name :: .lit "ld.so" :: rest, ∃ elf, get_elf_ehdr sys o = .ok elf := by
  obtain ⟨elements, -, h⟩ := Outcome.bind_eq_ok_iff.mp h
  obtain ⟨res, hres, h⟩ := Outcome.bind_eq_ok_iff.mp h
  obtain ⟨⟨more, rfl⟩, hscans⟩ := fill_rounds_scans hres
  refine ⟨elements ++ more, ?_, by simpa using hscans⟩
  cases h
  split <;> simp

end Shape

/-- A file that needs the named object, or nothing. -/
def needing (name : Option CString) : List Byte :=
  let dynamic : List Dyn := if name.isSome then [⟨DT_NEEDED, 0⟩, ⟨DT_NULL, 0⟩] else [⟨DT_NULL, 0⟩]
  image [] [⟨.lit ".dynamic", 0, dynamic.flatMap Dyn.encode⟩, ⟨.lit ".dynstr", 0, (name.getD (.lit "")).bytes⟩]

/-- Two objects that need each other, and a preloaded one. -/
def cyclic_sys : System where
  __ := System.of_files [(.lit "/a", needing (some (.lit "/b"))), (.lit "/b", needing (some (.lit "/a"))),
    (.lit "ld.so", needing none), (.lit "/p", needing none)]
  envp := [.lit "HOME=/", .lit "LD_PRELOAD=/p"]

def cyclic_graph : ObjectGraph cyclic_sys where
  objects := {.lit "/a", .lit "/b", .lit "ld.so", .lit "/p"}
  names o := if o = .lit "/a" then [.lit "/b"] else if o = .lit "/b" then [.lit "/a"] else []
  path _ n := n
  needed_eq o ho := by
    simp only [Finset.mem_insert, Finset.mem_singleton] at ho
    obtain rfl | rfl | rfl | rfl := ho <;> decide +kernel
  resolves o ho n hn := by
    simp only [Finset.mem_insert, Finset.mem_singleton] at ho
    obtain rfl | rfl | rfl | rfl := ho <;> revert n <;> decide +kernel
  closed o ho n hn := by
    simp only [Finset.mem_insert, Finset.mem_singleton] at ho
    obtain rfl | rfl | rfl | rfl := ho <;> revert n <;> decide +kernel

theorem build_dependency_table_cyclic :
    ∃ D bound, ∀ fuel ≥ bound, ∀ rounds ≥ 2, build_dependency_table cyclic_sys rounds fuel (.lit "/a") =
      .ok ([.lit "/a", .lit "ld.so", .lit "/p"] ++ D) := by
  have hpreload : Preloads cyclic_sys [.lit "/p"] := Or.inr ⟨.lit "/p", by decide +kernel, by decide +kernel⟩
  have hseeds : ∀ o ∈ [.lit "/a", .lit "ld.so"] ++ [CString.lit "/p"], o ∈ cyclic_graph.objects := by decide +kernel
  obtain ⟨D, -, bound, hbuild⟩ := build_dependency_table_eq cyclic_graph hpreload hseeds
  refine ⟨D, bound, fun fuel hfuel rounds hrounds => ?_⟩
  rw [hbuild fuel hfuel rounds hrounds]
  simp [cyclic_sys, System.of_files]

theorem cyclic_table : build_dependency_table cyclic_sys 2 4 (.lit "/a") =
    .ok [.lit "/a", .lit "ld.so", .lit "/p", .lit "/b"] := by decide +kernel

end ldso.dependency
