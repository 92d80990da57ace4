import LdSo.Dependency.Preload
import LdSo.Dependency.Table

open cmodel

namespace ldso.process

open dependency

variable {sys : System} {rounds fuel : Nat} {executable_name : CString}

/-- The run of `build_dependency_table` in the process: it ends as the search
alone does, cuts LD_PRELOAD, and writes the table's slots one by one, the
last one with NULL. -/
theorem build_dependency_table_simulates (sys : System) (rounds fuel : Nat) (executable_name : CString) :
    Simulates (build_dependency_table sys rounds fuel executable_name) (start sys)
      (dependency.build_dependency_table sys rounds fuel executable_name) fun table process =>
        preload_buffers sys.envp <+: process.buffers ∧ process.slots = List.range (table.length + 1) := by
  have hform : dependency.build_dependency_table sys rounds fuel executable_name =
      (dependency.preload sys >>= fun elements => .ok ([executable_name, .lit "ld.so"] ++ elements)) >>= fun res =>
        dependency.fill_rounds sys fuel rounds res >>= fun res =>
          .ok (if sys.vdso.isSome then res ++ [.lit "linux-vdso.so.1"] else res) := by
    rw [bind_assoc]
    rfl
  rw [hform, build_dependency_table]
  apply Simulates.step rfl
  apply Simulates.step rfl
  apply Simulates.bind (preload_simulates rfl rfl)
  rintro res p ⟨hbuffers, hslots⟩
  have hfilled : Filled sys p res p := ⟨List.prefix_refl _, hslots, shows_preload_buffers hbuffers⟩
  apply Simulates.bind (fill_rounds_simulates fuel rounds hfilled)
  intro table q hq
  by_cases hvdso : sys.vdso.isSome = true
  · rw [if_pos hvdso, if_pos hvdso]
    apply Simulates.step rfl
    apply Simulates.step rfl
    have hpush := hq.push (.lit "linux-vdso.so.1")
    refine .pure ⟨hbuffers ▸ hq.buffers, ?_⟩
    rw [List.range_succ, ← hpush.slots]
  · rw [if_neg hvdso, if_neg hvdso]
    apply Simulates.step rfl
    apply Simulates.step rfl
    refine .pure ⟨hbuffers ▸ hq.buffers, ?_⟩
    rw [List.range_succ, ← hq.slots]

theorem build_dependency_table_returns {table : List CString}
    (h : dependency.build_dependency_table sys rounds fuel executable_name = .ok table) :
    ∃ process, build_dependency_table sys rounds fuel executable_name (start sys) = .ok (table, process) ∧
      preload_buffers sys.envp <+: process.buffers ∧ process.slots = List.range (table.length + 1) :=
  (build_dependency_table_simulates sys rounds fuel executable_name).returns h

section Sample

/-- "/p" once and `n` times more. -/
def preload_list : Nat → CString
  | 0 => .lit "/p"
  | n + 1 => (CString.lit "/p:").append (preload_list n)

/-- An executable "/a" that needs nothing, started with "/p" preloaded `n + 1` times. -/
def preloading (n : Nat) : System where
  __ := System.of_files [(.lit "/a", needing none), (.lit "ld.so", needing none), (.lit "/p", needing none)]
  envp := [(CString.lit "LD_PRELOAD=").append (preload_list n)]

theorem preload_list_split (n : Nat) : (preload_list n).chars.splitOnP (· ∈ delimiters.chars) =
    (List.replicate (n + 1) (CString.lit "/p")).map CString.chars := by
  induction n with
  | zero => decide +kernel
  | succ n ih =>
    have hhead : (CString.lit "/p:").chars = (CString.lit "/p").chars ++ [0x3a#8] := by decide +kernel
    have hclean : ∀ c ∈ (CString.lit "/p").chars, decide (c ∈ delimiters.chars) = false := by decide +kernel
    have hsep : decide (0x3a#8 ∈ delimiters.chars) = true := by decide +kernel
    rw [preload_list, CString.append_chars, hhead, List.append_assoc, List.singleton_append,
      List.splitOnP_append_cons_of_forall_mem hclean _ hsep, ih, List.replicate_succ (n := n + 1), List.map_cons]

theorem preloading_preloads (n : Nat) : Preloads (preloading n) (List.replicate (n + 1) (.lit "/p")) := by
  refine .inr ⟨preload_list n, ?_, preload_list_split n⟩
  have hhead : (CString.lit "LD_PRELOAD=").chars = (CString.lit "LD_PRELOAD").chars ++ [0x3d#8] := by decide +kernel
  have hext : Extends (.lit "LD_PRELOAD") ((CString.lit "LD_PRELOAD=").append (preload_list n)) := by
    unfold Extends
    rw [CString.append_chars, hhead, List.append_assoc]
    exact ⟨List.prefix_append _ _, by simp⟩
  rw [get_env_value_eq_find]
  simp only [preloading, List.find?_cons, hext, decide_true, Option.map_some, Outcome.ok.injEq, Option.some.injEq]
  ext1
  rw [CString.drop_chars, CString.append_chars, hhead]
  exact List.drop_left' (by simp)

def preloading_graph (n : Nat) : ObjectGraph (preloading n) where
  objects := {.lit "/a", .lit "ld.so", .lit "/p"}
  names _ := []
  path _ n := n
  needed_eq o ho := by
    have hsame : needed (preloading n) o = needed (preloading 0) o := by
      apply needed_sameFile
      refine ⟨?_, rfl, rfl⟩
      revert o
      decide +kernel
    rw [hsame]
    clear hsame
    revert o
    decide +kernel
  resolves _ _ _ hn := by cases hn
  closed _ _ _ hn := by cases hn

theorem preloading_seeds (n : Nat) :
    ∀ o ∈ [.lit "/a", .lit "ld.so"] ++ List.replicate (n + 1) (.lit "/p"), o ∈ (preloading_graph n).objects := by
  intro o ho
  simp only [List.mem_append, List.mem_cons, List.not_mem_nil, or_false, List.mem_replicate] at ho
  simp only [preloading_graph, Finset.mem_insert, Finset.mem_singleton]
  tauto

end Sample

section Slots

/-- For every finite graph of shared objects, executable and LD_PRELOAD list:
the slots that are written lie inside the table exactly when the executable,
"ld.so", the LD_PRELOAD elements, the further objects that these need, the
vdso's entry and the NULL behind them are at most MAX_DEP. -/
theorem build_dependency_table_slots_iff (g : ObjectGraph sys) {elements : List CString}
    (hpreload : Preloads sys elements) (hseeds : ∀ o ∈ [executable_name, .lit "ld.so"] ++ elements, o ∈ g.objects) :
    ∃ bound, ∀ fuel ≥ bound, ∀ rounds ≥ 2, ∃ table process,
      build_dependency_table sys rounds fuel executable_name (start sys) = .ok (table, process) ∧
        ((∀ i ∈ process.slots, i < MAX_DEP) ↔
          2 + elements.length + reachedCount g.children ([executable_name, .lit "ld.so"] ++ elements) +
            (if sys.vdso.isSome then 1 else 0) + 1 ≤ MAX_DEP) := by
  obtain ⟨D, hD, bound, hbuild⟩ := build_dependency_table_eq g hpreload hseeds
  refine ⟨bound, fun fuel hfuel rounds hrounds => ?_⟩
  obtain ⟨process, hreturns, -, hslots⟩ := build_dependency_table_returns (hbuild fuel hfuel rounds hrounds)
  refine ⟨_, process, hreturns, ?_⟩
  have hlength : ([executable_name, .lit "ld.so"] ++ elements ++ D ++
      if sys.vdso.isSome then [CString.lit "linux-vdso.so.1"] else []).length =
        2 + elements.length + reachedCount g.children ([executable_name, .lit "ld.so"] ++ elements) +
          (if sys.vdso.isSome then 1 else 0) := by
    rw [List.length_append, List.length_append, List.length_append, hD.length_eq]
    split <;> rfl
  rw [hslots, hlength]
  constructor
  · intro h
    have hlast := h _ (List.mem_range.mpr (Nat.lt_succ_self _))
    omega
  · intro h i hi
    have hlt := List.mem_range.mp hi
    omega

/-- Two objects that need each other and a preloaded one: few enough slots. -/
theorem build_dependency_table_slots_cyclic :
    ∃ fuel table process, build_dependency_table cyclic_sys 2 fuel (.lit "/a") (start cyclic_sys) = .ok (table, process) ∧
      ∀ i ∈ process.slots, i < MAX_DEP := by
  have hpreload : Preloads cyclic_sys [.lit "/p"] := Or.inr ⟨.lit "/p", by decide +kernel, by decide +kernel⟩
  have hseeds : ∀ o ∈ [.lit "/a", .lit "ld.so"] ++ [CString.lit "/p"], o ∈ cyclic_graph.objects := by decide +kernel
  obtain ⟨fuel, hrun⟩ := build_dependency_table_slots_iff cyclic_graph hpreload hseeds
  obtain ⟨table, process, hreturns, hiff⟩ := hrun fuel le_rfl 2 le_rfl
  refine ⟨fuel, table, process, hreturns, hiff.mpr ?_⟩
  have hcount := reachedCount_le hseeds fun u hu c hc => cyclic_graph.children_mem hu hc
  have hcard : cyclic_graph.objects.card ≤ 4 := Finset.card_le_four
  have hvdso : cyclic_sys.vdso.isSome = false := rfl
  rw [if_neg (by simp [hvdso]), List.length_singleton, MAX_DEP]
  omega

/-- With 98 preloaded objects the NULL behind the table is written to slot 100. -/
theorem build_dependency_table_slots_preloading :
    ∃ fuel table process, build_dependency_table (preloading 97) 2 fuel (.lit "/a") (start (preloading 97)) = .ok (table, process) ∧
      ¬ ∀ i ∈ process.slots, i < MAX_DEP := by
  obtain ⟨D, -, fuel, hbuild⟩ :=
    build_dependency_table_eq (preloading_graph 97) (preloading_preloads 97) (preloading_seeds 97)
  obtain ⟨process, hreturns, -, hslots⟩ := build_dependency_table_returns (hbuild fuel le_rfl 2 le_rfl)
  refine ⟨fuel, _, process, hreturns, fun h => ?_⟩
  have hlast := h 100 (by
    rw [hslots, List.mem_range]
    simp only [List.length_append, List.length_cons, List.length_nil, List.length_replicate]
    omega)
  exact absurd hlast (by decide)

end Slots

section Frame

/-- In every run that returns, the environment's strings are what they were at
the start exactly when the bytes taken for LD_PRELOAD's value, if there are
any, have no delimiter: the copies that are cut for every lookup are not the
environment's, but LD_PRELOAD itself is cut in place. -/
theorem build_dependency_table_environment_iff {table : List CString} {process : Process}
    (hrun : build_dependency_table sys rounds fuel executable_name (start sys) = .ok (table, process)) :
    process.buffers.take sys.envp.length = (start sys).buffers ↔
      ∀ value, display_auxv.get_env_value sys.envp (.lit "LD_PRELOAD") = .ok (some value) →
        ∀ c ∈ value.chars, c ∉ delimiters.chars := by
  obtain ⟨-, ⟨tail, htail⟩, -⟩ := (build_dependency_table_simulates sys rounds fuel executable_name).of_returns hrun
  have hlength : (preload_buffers sys.envp).length = sys.envp.length := by
    unfold preload_buffers
    split <;> simp
  rw [← htail, ← hlength, List.take_left]
  exact preload_buffers_eq_iff sys.envp

/-- A run with one preloaded object leaves the environment alone. -/
theorem build_dependency_table_environment_cyclic :
    ∃ table process, build_dependency_table cyclic_sys 2 4 (.lit "/a") (start cyclic_sys) = .ok (table, process) ∧
      process.buffers.take cyclic_sys.envp.length = (start cyclic_sys).buffers := by
  obtain ⟨process, hreturns, -⟩ := build_dependency_table_returns cyclic_table
  refine ⟨_, process, hreturns, (build_dependency_table_environment_iff hreturns).mpr ?_⟩
  have hvalue : display_auxv.get_env_value cyclic_sys.envp (.lit "LD_PRELOAD") = .ok (some (.lit "/p")) := by decide +kernel
  intro value htaken
  rw [hvalue] at htaken
  cases htaken
  decide +kernel

/-- A list of two preloaded objects is cut in the environment itself. -/
theorem build_dependency_table_environment_preloading :
    ∃ fuel table process, build_dependency_table (preloading 1) 2 fuel (.lit "/a") (start (preloading 1)) = .ok (table, process) ∧
      process.buffers.take (preloading 1).envp.length ≠ (start (preloading 1)).buffers := by
  obtain ⟨D, -, fuel, hbuild⟩ :=
    build_dependency_table_eq (preloading_graph 1) (preloading_preloads 1) (preloading_seeds 1)
  obtain ⟨process, hreturns, ⟨tail, htail⟩, -⟩ := build_dependency_table_returns (hbuild fuel le_rfl 2 le_rfl)
  refine ⟨fuel, _, process, hreturns, ?_⟩
  have hcut : (preload_buffers (preloading 1).envp).take (preloading 1).envp.length ≠ (start (preloading 1)).buffers ∧
      (preloading 1).envp.length ≤ (preload_buffers (preloading 1).envp).length := by decide +kernel
  rw [← htail, List.take_append_of_le_length hcut.2]
  exact hcut.1

end Frame

end ldso.process
