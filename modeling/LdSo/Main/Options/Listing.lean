import LdSo.Main.Options.Output
import LdSo.Loader.Listed

open cmodel

namespace ldso.options

open elf stdio loader

section Read

variable {place : Place} {heap : Heap} {ps : List Nat}

/-- The name and the address of a node. -/
def Place.entry (place : Place) (heap : Heap) (p : Nat) (node : LinkMap) : List Byte × Int :=
  (node.l_name.chars, ((place.dynamic heap p).toNat : Int))

/-- What is printed of a link map is read back as its names and addresses. -/
theorem read_trace_output (h : ∀ p ∈ ps, ∀ node, heap[p]? = some node → chr '\n' ∉ node.l_name.chars) :
    (lines (place.trace_output heap ps)).map read_line =
      ps.filterMap fun p => (heap[p]?).map (place.entry heap p) := by
  have htexts : ∃ texts : List (List Byte), place.trace_output heap ps = texts.flatMap (· ++ [chr '\n']) ∧
      (∀ text ∈ texts, chr '\n' ∉ text) ∧
      texts.map read_line = ps.filterMap fun p => (heap[p]?).map (place.entry heap p) := by
    induction ps with
    | nil => exact ⟨[], rfl, by simp, rfl⟩
    | cons p ps ih =>
      obtain ⟨texts, htexts, hlines, hread⟩ := ih fun q hq => h q (by simp [hq])
      rw [Place.trace_output, List.flatMap_cons]
      cases hnode : heap[p]? with
      | none => exact ⟨texts, htexts, hlines, by rw [hread, List.filterMap_cons, hnode, Option.map_none]⟩
      | some node =>
        refine ⟨trace_text node.l_name (place.dynamic heap p) :: texts, ?_, ?_, ?_⟩
        · rw [List.flatMap_cons, ← htexts]
          rfl
        · intro text htext
          obtain rfl | htext := List.mem_cons.mp htext
          · exact not_mem_trace_text _ (h p (by simp) node hnode) (.inr rfl)
          · exact hlines text htext
        · rw [List.map_cons, read_line_trace_text, hread, List.filterMap_cons, hnode]
          rfl
  obtain ⟨texts, htexts, hlines, hread⟩ := htexts
  rw [htexts, lines_flatMap hlines, hread]

/-- The nodes of the whole heap, in the order of their places. -/
theorem filterMap_range_getElem? {α : Type} (heap : Heap) (f : Nat → LinkMap → α) :
    ((List.range heap.length).filterMap fun p => (heap[p]?).map (f p)) = heap.mapIdx f := by
  induction heap using List.reverseRecOn with
  | nil => rfl
  | append_singleton heap node ih =>
    rw [List.length_append, List.length_singleton, List.range_succ, List.filterMap_append, List.mapIdx_concat, ← ih]
    congr 1
    · apply List.filterMap_congr
      intro p hp
      rw [List.getElem?_append_left (List.mem_range.mp hp)]
    · simp

end Read

section Unset

variable {sys : System} {base vdso : elf_addr}

/-- The nodes of the objects that the kernel has placed have no `l_ld`. -/
def Unset (heap : Heap) : Prop := ∀ node ∈ heap, ¬ Mapped node.l_name → node.l_ld = none

theorem Unset.append_node {heap : Heap} (h : Unset heap) (tail : Nat) (node : LinkMap)
    (hnode : ¬ Mapped node.l_name → node.l_ld = none) : Unset (heap.append_node tail node) := by
  have hmap : (heap.append_node tail node).map (fun v => (v.l_name, v.l_ld)) =
      heap.map (fun v => (v.l_name, v.l_ld)) ++ [(node.l_name, node.l_ld)] := by
    unfold Heap.append_node
    rw [Heap.map_link _ fun _ _ => rfl, List.map_append]
    rfl
  intro v hv hname
  have hmem : (v.l_name, v.l_ld) ∈ heap.map (fun v => (v.l_name, v.l_ld)) ++ [(node.l_name, node.l_ld)] := by
    rw [← hmap]
    exact List.mem_map_of_mem hv
  obtain hold | hnew := List.mem_append.mp hmem
  · obtain ⟨u, hu, heq⟩ := List.mem_map.mp hold
    obtain ⟨hsame, hld⟩ := Prod.mk.inj heq
    rw [← hld]
    exact h u hu (by rwa [hsame])
  · obtain ⟨hsame, hld⟩ := Prod.mk.inj (List.mem_singleton.mp hnew)
    rw [hld]
    exact hnode (by rwa [← hsame])

theorem build_step_unset {s t : BuildState} {name : CString} (hoffset : s.offset ≠ 0) (hs : Unset s.heap)
    (h : build_step sys base vdso s name = .ok t) : Unset t.heap := by
  by_cases hname : Mapped name
  · obtain ⟨node, elf, program, ret, loaded, rfl, -, -, -, -, -, rfl⟩ := build_step_mapped hoffset hname h
    exact hs.append_node _ _ fun hnot => absurd hname hnot
  · unfold build_step at h
    simp only [hoffset, ne_eq, not_false_eq_true, if_true] at h
    obtain ⟨-, -, h⟩ := Outcome.bind_eq_ok_iff.mp h
    by_cases hld : name = .lit "ld.so"
    · rw [if_pos hld] at h
      cases h
      exact hs.append_node s.map ⟨base, name, none, none, some s.map⟩ fun _ => rfl
    · have hvdso : name = .lit "linux-vdso.so.1" := by
        by_contra hvdso
        exact hname ⟨hld, hvdso⟩
      rw [if_neg hld, if_pos hvdso] at h
      cases h
      exact hs.append_node s.map ⟨vdso, name, none, none, some s.map⟩ fun _ => rfl

/-- As long as every entry gets a node of its own, what the kernel has placed gets no `l_ld`. -/
theorem build_loop_unset {rest done : List CString} {s s' : BuildState} (hc : Chained s done) (hoffset : s.offset ≠ 0)
    (haddr : IntsNonzero (s.addresses sys rest.dropLast)) (hs : Unset s.heap)
    (h : build_loop sys base vdso rest s = .ok s') : Unset s'.heap := by
  induction rest generalizing s done with
  | nil =>
    cases h
    exact hs
  | cons name rest ih =>
    obtain ⟨t, hstep, h⟩ := Outcome.bind_eq_ok_iff.mp h
    obtain ⟨hct, -, -⟩ := build_step_chained hc hoffset hstep
    have ht := build_step_unset hoffset hs hstep
    cases rest with
    | nil =>
      cases h
      exact ht
    | cons name' rest =>
      rw [List.dropLast_cons_cons, build_step_offset hc hoffset hstep] at haddr
      exact ih hct haddr.1 haddr.2 ht h

theorem build_link_map_unset {v : LinkMap} {m m' : Memory 64} {exe : CString} {rest : List CString} {heap : Heap}
    {ret : Option Nat} (hexe : Mapped exe) (hv : v.l_ld = none)
    (haddr : IntsNonzero (load_addresses sys (exe :: rest).dropLast 0 0 m).tail)
    (h : build_link_map sys [v] m (exe :: rest) base vdso 0 = .ok (ret, heap, m')) : Unset heap := by
  obtain ⟨t, s, -, hct, hoffset, hloop, -, rfl, haddrs⟩ := build_link_map_first hexe hv h
  rw [haddrs] at haddr
  refine build_loop_unset hct hoffset haddr (fun node hnode hname => ?_) hloop
  have hmem : node.l_name ∈ t.names := List.mem_map_of_mem hnode
  rw [hct.names, List.mem_singleton] at hmem
  exact absurd (hmem ▸ hexe) hname

end Unset

/-- A program that is started to list its objects prints one line for each entry of the
dependency table, in order, and the process ends: the line has the name of the entry and
the address of the node's dynamic section, or what the allocator left in the node when
the kernel has placed the object. -/
theorem handle_options_lists_table {sys : System} {place : Place} {m m' m₁ : Memory 64} {v : LinkMap} {exe : CString}
    {rest : List CString} {base vdso stack : elf_addr} {ret : Option Nat} {heap : Heap} {s : startup.InitialStack}
    (hexe : Mapped exe) (hv : v.l_ld = none) (haddr : IntsNonzero (load_addresses sys (exe :: rest).dropLast 0 0 m).tail)
    (hbuild : build_link_map sys [v] m (exe :: rest) base vdso 0 = .ok (ret, heap, m')) (h : place.Laid m₁)
    (hstack : (place.visible m₁).Loads stack s.words) (hfits : 8 * s.words.length ≤ 2 ^ 64)
    (hnames : ∀ p < heap.length, place.Named m₁ heap p) (hlines : ∀ name ∈ exe :: rest, chr '\n' ∉ name.chars)
    (htrace : Requested sys (.lit "LD_TRACE_LOADED_OBJECTS")) (hshow : ¬ Requested sys (.lit "LD_SHOW_AUXV")) :
    ∃ out', handle_options sys place heap (s.envp_at stack) ret ⟨m₁, []⟩ = .ok (out', some 0) ∧
      ((lines out'.output).map read_line).map Prod.fst = (exe :: rest).map CString.chars ∧
      ∀ p node, heap[p]? = some node →
        ((lines out'.output).map read_line)[p]? = some (node.l_name.chars,
          (if Mapped node.l_name then (node.l_ld.getD (place.l_ld p)).toNat else (place.l_ld p).toNat : Int)) := by
  obtain ⟨rfl, hlinks, htable⟩ := build_link_map_chained hexe hv haddr hbuild
  have hunset := build_link_map_unset hexe hv haddr hbuild
  obtain ⟨out', hrun, houtput, -⟩ := trace_loop_prints h (.refl [] h.buffer) hlinks.chain
    (fun p hp => hnames p (List.mem_range.mp hp)) (Nat.lt_succ_of_le hlinks.chain.length_le)
  have hread : (lines out'.output).map read_line = heap.mapIdx (place.entry heap) := by
    rw [houtput, List.nil_append, read_trace_output, filterMap_range_getElem?]
    intro p _ node hnode
    apply hlines
    rw [← htable]
    exact List.mem_map_of_mem (List.mem_of_getElem? hnode)
  refine ⟨out', ?_, ?_, fun p node hnode => ?_⟩
  · rw [handle_options_eq (Place.loads_of_visible hstack) hfits, if_neg hshow, Outcome.ok_bind, if_pos htrace, hrun]
    rfl
  · rw [hread, ← htable, List.map_map]
    apply List.ext_getElem?
    intro p
    rw [List.getElem?_map, List.getElem?_mapIdx, List.getElem?_map, Option.map_map]
    rfl
  · rw [hread, List.getElem?_mapIdx, hnode, Option.map_some, Place.entry, Place.dynamic, hnode, Option.bind_some]
    split
    · rfl
    · next hname => rw [hunset node (List.mem_of_getElem? hnode) hname, Option.getD_none]

/-- The executable and the library, started to list them. -/
def traced_sys : System := { exe_and_lib_sys small_exe with envp := [.lit "LD_TRACE_LOADED_OBJECTS=1"] }

def traced_table : List CString := [.lit "/a", .lit "ld.so", .lit "/l", .lit "linux-vdso.so.1"]

def traced_run : Outcome (Option Nat × Heap) := do
  let (ret, heap, _) ← build_link_map traced_sys [⟨0, .lit "", none, none, none⟩] (fun _ => none) traced_table
    0x7f0000000000 0x7fff00001000 0
  return (ret, heap)

theorem handle_options_lists_small : ∃ heap out',
    handle_options traced_sys (.of_names traced_table) heap (page_size_stack.envp_at 0x30000) (some 0)
        ⟨Place.memory traced_table page_size_stack.words, []⟩ = .ok (out', some 0) ∧
      ((lines out'.output).map read_line).map Prod.fst = traced_table.map CString.chars := by
  have hrun : traced_run = .ok (some 0,
      [⟨0, .lit "/a", none, some 1, none⟩, ⟨0x7f0000000000, .lit "ld.so", none, some 2, some 0⟩,
        ⟨0x403000, .lit "/l", none, some 3, some 1⟩, ⟨0x7fff00001000, .lit "linux-vdso.so.1", none, none, some 2⟩]) ∧
      load_addresses traced_sys [.lit "/a", .lit "ld.so", .lit "/l"] 0 0 (fun _ => none) = [0, 0x403000] := by
    decide +kernel
  obtain ⟨⟨ret, heap, m'⟩, hbuild, h⟩ := Outcome.bind_eq_ok_iff.mp hrun.1
  cases h
  have hsize : ((option_strings ++ traced_table).flatMap CString.bytes).length ≤ 0x1000 := by
    rw [List.length_flatMap]
    decide
  have haddr : IntsNonzero (load_addresses traced_sys traced_table.dropLast 0 0 (fun _ => none)).tail := by
    have hdrop : traced_table.dropLast = [.lit "/a", .lit "ld.so", .lit "/l"] := rfl
    rw [hdrop, hrun.2]
    simp [IntsNonzero]
  obtain ⟨out', hout, hnames, -⟩ := @handle_options_lists_table traced_sys _ _ _ _ _ _ _ _ _ _ _ _ page_size_stack
    (by decide) rfl haddr hbuild (Place.of_names_laid hsize) (Place.visible_loads hsize (by decide)) (by decide)
    (fun p _ => Place.of_names_named hsize rfl (by decide) p) (by decide) (by decide) (by decide)
  exact ⟨_, out', hout, hnames⟩

end ldso.options
