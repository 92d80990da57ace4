import LdSo.Dependency.Distinct
import LdSo.Dependency.Effects
import LdSo.Main.Relocated

open cmodel

namespace ldso

open dependency loader

/-- Whatever memory and addresses the loader goes on with: `build_link_map` gives
no two nodes of the table one path, and the relocation loop visits no path twice. -/
def NothingTwice (sys : System) (table : List CString) : Prop :=
  ∀ v m base vdso map heap m', build_link_map sys [v] m table base vdso 0 = .ok (map, heap, m') →
    (heap.map LinkMap.l_name).Nodup ∧
      ∀ map lazy next m relocated m', relocate_loop sys heap map lazy heap.length next m = .ok (relocated, m') →
        ((heap.nodes relocated).map LinkMap.l_name).Nodup

variable {sys : System} {table : List CString}

/-- Distinct entries are enough for that. -/
theorem nothingTwice_of_nodup {exe : CString} (hnodup : (exe :: table).Nodup) : NothingTwice sys (exe :: table) := by
  intro v m base vdso map heap m' hbuild
  have hnames : ∀ x, (heap.map LinkMap.l_name).count x ≤ 1 := by
    intro x
    exact ((build_link_map_le hbuild).2 x).trans (List.nodup_iff_count_le_one.mp hnodup x)
  refine ⟨List.nodup_iff_count_le_one.mpr hnames, ?_⟩
  intro map lazy next m relocated m' hloop
  apply List.nodup_iff_count_le_one.mpr
  intro x
  exact (relocate_loop_count_le hloop x).trans (hnames x)

/-- The entries of a returned table are distinct, so that no path is mapped or
relocated twice, exactly when the executable, "ld.so" and the LD_PRELOAD
elements are distinct and the vdso, when there is one, is not also reached as a
file. Only what `fill_dependency` adds is compared with the table before. -/
theorem build_dependency_table_nodup_iff {rounds fuel : Nat} {executable_name : CString} {elements : List CString}
    (hpreload : Preloads sys elements) (h : build_dependency_table sys rounds fuel executable_name = .ok table) :
    table.Nodup ∧ NothingTwice sys table ↔
      ([executable_name, .lit "ld.so"] ++ elements).Nodup ∧
        (sys.vdso.isSome = true → ¬ Reached sys ([executable_name, .lit "ld.so"] ++ elements) (.lit "linux-vdso.so.1")) := by
  obtain ⟨D, htable, hnodup, hfresh, hreached⟩ := build_dependency_table_lists hpreload h
  have hfront : ([executable_name, .lit "ld.so"] ++ elements ++ D).Nodup ↔
      ([executable_name, .lit "ld.so"] ++ elements).Nodup := by
    rw [List.nodup_append]
    constructor
    · exact And.left
    · intro hseeds
      refine ⟨hseeds, hnodup, ?_⟩
      rintro c hc _ hd rfl
      exact hfresh c hd hc
  have hdistinct : table.Nodup ↔ ([executable_name, .lit "ld.so"] ++ elements).Nodup ∧
      (sys.vdso.isSome = true → ¬ Reached sys ([executable_name, .lit "ld.so"] ++ elements) (.lit "linux-vdso.so.1")) := by
    rw [htable, ← hfront, ← hreached]
    by_cases hvdso : sys.vdso.isSome = true
    · rw [if_pos hvdso, List.nodup_append]
      simp only [hvdso, forall_const]
      constructor
      · rintro ⟨hall, -, hapart⟩
        exact ⟨hall, fun hmem => hapart _ hmem _ (List.mem_singleton_self _) rfl⟩
      · rintro ⟨hall, hnot⟩
        refine ⟨hall, by simp, ?_⟩
        rintro c hc _ hd rfl
        exact hnot (List.mem_singleton.mp hd ▸ hc)
    · rw [if_neg hvdso, List.append_nil]
      simp [hvdso]
  rw [← hdistinct]
  constructor
  · exact And.left
  · intro hall
    refine ⟨hall, ?_⟩
    have hhead : table = executable_name ::
        (.lit "ld.so" :: elements ++ D ++ if sys.vdso.isSome then [.lit "linux-vdso.so.1"] else []) :=
      htable.trans (by simp)
    rw [hhead] at hall ⊢
    exact nothingTwice_of_nodup hall

/-- Two objects that need each other are listed once each. -/
theorem build_dependency_table_nodup_cyclic :
    ∃ table, build_dependency_table cyclic_sys 2 4 (.lit "/a") = .ok table ∧ table.Nodup ∧
      NothingTwice cyclic_sys table := by
  have hpreload : Preloads cyclic_sys [.lit "/p"] := Or.inr ⟨.lit "/p", by decide +kernel, by decide +kernel⟩
  refine ⟨_, cyclic_table, (build_dependency_table_nodup_iff hpreload cyclic_table).mpr ⟨by decide +kernel, ?_⟩⟩
  intro hvdso
  cases hvdso

/-- LD_PRELOAD=/p:/p lists "/p" twice. -/
theorem build_dependency_table_nodup_preloading :
    ∃ fuel table, build_dependency_table (process.preloading 1) 2 fuel (.lit "/a") = .ok table ∧ ¬ table.Nodup := by
  obtain ⟨D, -, fuel, hbuild⟩ :=
    build_dependency_table_eq (process.preloading_graph 1) (process.preloading_preloads 1) (process.preloading_seeds 1)
  refine ⟨fuel, _, hbuild fuel le_rfl 2 le_rfl, fun hnodup => ?_⟩
  have hseeds := (List.nodup_append.mp (List.nodup_append.mp hnodup).1).1
  have htwice := (List.nodup_append.mp hseeds).2.1
  simp at htwice

end ldso
