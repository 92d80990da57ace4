import LdSo.Dependency.Table

open cmodel

namespace ldso.dependency

open elf elf_manipulation

variable {sys : System}

/-- `c` is what a DT_NEEDED entry of `o` resolves to. -/
def Needs (sys : System) (o c : CString) : Prop :=
  ∃ names, needed sys o = .ok names ∧ ∃ n ∈ names, get_lib_absolute_path sys n o = .ok c

/-- What is listed at first and what that needs, directly or not. -/
inductive Reached (sys : System) (seeds : List CString) : CString → Prop where
  | seed {c} (h : c ∈ seeds) : Reached sys seeds c
  | needed {o c} (ho : Reached sys seeds o) (hc : Needs sys o c) : Reached sys seeds c

/-- What a table gains: new entries only, and only what is needed by earlier ones. -/
structure Grown (sys : System) (res res' : List CString) : Prop where
  added : ∃ D, res' = res ++ D ∧ D.Nodup ∧ ∀ d ∈ D, d ∉ res
  reached : ∀ c ∈ res', Reached sys res c

namespace Grown

variable {res res' res'' : List CString}

theorem refl (res : List CString) : Grown sys res res := ⟨⟨[], by simp⟩, fun _ => .seed⟩

theorem subset (h : Grown sys res res') {c : CString} (hc : c ∈ res) : c ∈ res' := by
  obtain ⟨⟨D, rfl, -⟩, -⟩ := h
  exact List.mem_append_left _ hc

theorem trans (h : Grown sys res res') (h' : Grown sys res' res'') : Grown sys res res'' where
  added := by
    obtain ⟨D, rfl, hnodup, hfresh⟩ := h.added
    obtain ⟨D', rfl, hnodup', hfresh'⟩ := h'.added
    refine ⟨D ++ D', by simp, ?_, ?_⟩
    · apply List.nodup_append.mpr
      refine ⟨hnodup, hnodup', ?_⟩
      rintro d hd _ hd' rfl
      exact hfresh' d hd' (List.mem_append_right _ hd)
    · intro d hd hmem
      obtain hd | hd := List.mem_append.mp hd
      · exact hfresh d hd hmem
      · exact hfresh' d hd (List.mem_append_left _ hmem)
  reached c hc := by
    have hlater := h'.reached c hc
    clear hc
    induction hlater with
    | seed hmem => exact h.reached _ hmem
    | needed ho hneeds ih => exact .needed ih hneeds

/-- The entry that `fill_dependency` pushes when the table does not have it. -/
theorem push {o c : CString} (ho : o ∈ res) (hc : Needs sys o c) :
    Grown sys res (if is_in res c then res else res ++ [c]) := by
  by_cases hin : is_in res c = true
  · rw [if_pos hin]
    exact refl res
  · rw [if_neg hin]
    refine ⟨⟨[c], rfl, by simp, ?_⟩, ?_⟩
    · intro d hd hmem
      obtain rfl := List.mem_singleton.mp hd
      exact hin (is_in_iff.mpr hmem)
    · intro d hd
      obtain hd | hd := List.mem_append.mp hd
      · exact .seed hd
      · obtain rfl := List.mem_singleton.mp hd
        exact .needed (.seed ho) hc

end Grown

variable {res res' : List CString}

/-- The loop over a dynamic section: what its DT_NEEDED entries resolve to is in the table then. -/
theorem fill_needed_grows {object : CString} {dynstr : List Byte} {dynamic : List Dyn} (hobject : object ∈ res)
    (h : fill_needed sys object dynstr dynamic res = .ok res') :
    ∃ names, needed_names dynstr dynamic = .ok names ∧
      ((∀ n ∈ names, ∀ c, get_lib_absolute_path sys n object = .ok c → Needs sys object c) → Grown sys res res') ∧
      res ⊆ res' ∧ ∀ n ∈ names, ∃ c ∈ res', get_lib_absolute_path sys n object = .ok c := by
  induction dynamic generalizing res with
  | nil => cases h
  | cons dyn rest ih =>
    rw [fill_needed] at h
    rw [needed_names]
    by_cases hnull : dyn.d_tag = DT_NULL
    · rw [if_pos hnull] at h ⊢
      cases h
      exact ⟨[], rfl, fun _ => .refl _, fun _ => id, by simp⟩
    rw [if_neg hnull] at h ⊢
    by_cases hneeded : dyn.d_tag = DT_NEEDED
    · rw [if_pos hneeded] at h ⊢
      obtain ⟨name, hname, h⟩ := Outcome.bind_eq_ok_iff.mp h
      obtain ⟨c, hc, h⟩ := Outcome.bind_eq_ok_iff.mp h
      have hsub : ∀ x ∈ res, x ∈ if is_in res c then res else res ++ [c] := by
        intro x hx
        split
        · exact hx
        · exact List.mem_append_left _ hx
      obtain ⟨names, hnames, hgrown, hsubset, hresolved⟩ := ih (hsub object hobject) h
      refine ⟨name :: names, by rw [hname, Outcome.ok_bind, hnames]; rfl, ?_, fun x hx => hsubset (hsub x hx), ?_⟩
      · intro hneeds
        obtain ⟨hhead, htail⟩ := List.forall_mem_cons.mp hneeds
        exact (Grown.push hobject (hhead c hc)).trans (hgrown htail)
      · rw [List.forall_mem_cons]
        refine ⟨⟨c, hsubset ?_, hc⟩, hresolved⟩
        split
        · next hin => exact is_in_iff.mp hin
        · exact List.mem_append_right _ (List.mem_singleton_self c)
    · rw [if_neg hneeded] at h ⊢
      exact ih hobject h

/-- At its end the table stays as it is, and there are no entries that need anything. -/
theorem grows_at_end {i : Nat} (hend : res[i]? = none) :
    Grown sys res res ∧ ∀ j o, i ≤ j → res[j]? = some o → ∀ c, Needs sys o c → c ∈ res := by
  refine ⟨.refl _, fun j o hij hj => ?_⟩
  rw [getElem?_behind_end hend hij] at hj
  cases hj

/-- `fill_dependency` adds what is needed, and leaves out nothing that the
entries from `i` on need. -/
theorem fill_dependency_grows {fuel i : Nat} (h : fill_dependency sys fuel i res = .ok res') :
    Grown sys res res' ∧ ∀ j o, i ≤ j → res'[j]? = some o → ∀ c, Needs sys o c → c ∈ res' := by
  induction fuel generalizing i res with
  | zero =>
    rw [fill_dependency] at h
    split at h
    · next hend =>
      cases h
      exact grows_at_end hend
    · cases h
  | succ fuel ih =>
    rw [fill_dependency] at h
    split at h
    · next hend =>
      cases h
      exact grows_at_end hend
    · next object hobject =>
      obtain ⟨elf, helf, h⟩ := Outcome.bind_eq_ok_iff.mp h
      obtain ⟨dynamic, hdynamic, h⟩ := Outcome.bind_eq_ok_iff.mp h
      obtain ⟨dynstr, hdynstr, h⟩ := Outcome.bind_eq_ok_iff.mp h
      obtain ⟨more, hmore, h⟩ := Outcome.bind_eq_ok_iff.mp h
      obtain ⟨names, hnames, hgrown, -, hresolved⟩ := fill_needed_grows (List.mem_of_getElem? hobject) hmore
      have hneeded : needed sys object = .ok names := by
        simp only [needed, helf, hdynamic, hdynstr, Outcome.ok_bind, hnames]
      have hfirst : Grown sys res more := hgrown fun n hn c hc => ⟨names, hneeded, n, hn, hc⟩
      obtain ⟨hrest, hclosed⟩ := ih h
      refine ⟨hfirst.trans hrest, fun j o hij hj c hc => ?_⟩
      obtain rfl | hlt := hij.eq_or_lt
      · obtain ⟨⟨D, rfl, -⟩, -⟩ := hfirst.trans hrest
        rw [List.getElem?_append_left (List.getElem?_eq_some_iff.mp hobject).1, hobject] at hj
        cases hj
        obtain ⟨names', hnames', n, hn, hc⟩ := hc
        rw [hneeded] at hnames'
        cases hnames'
        obtain ⟨c', hmem, hc'⟩ := hresolved n hn
        rw [hc] at hc'
        cases hc'
        exact hrest.subset hmem
      · exact hclosed j o hlt hj c hc

theorem fill_rounds_grows {fuel rounds : Nat} (h : fill_rounds sys fuel rounds res = .ok res') :
    Grown sys res res' ∧ ∀ o ∈ res', ∀ c, Needs sys o c → c ∈ res' := by
  induction rounds generalizing res with
  | zero => cases h
  | succ rounds ih =>
    obtain ⟨more, hmore, h⟩ := Outcome.bind_eq_ok_iff.mp h
    obtain ⟨hgrown, hclosed⟩ := fill_dependency_grows hmore
    split at h
    · obtain ⟨hgrown', hclosed'⟩ := ih h
      exact ⟨hgrown.trans hgrown', hclosed'⟩
    · cases h
      refine ⟨hgrown, fun o ho => ?_⟩
      obtain ⟨j, hj⟩ := List.mem_iff_getElem?.mp ho
      exact hclosed j o (Nat.zero_le j) hj

/-- A returned table lists, in front of the vdso, the executable, "ld.so" and the
LD_PRELOAD elements, then once each what else is reached from these. -/
theorem build_dependency_table_lists {rounds fuel : Nat} {executable_name : CString} {elements table : List CString}
    (hpreload : Preloads sys elements) (h : build_dependency_table sys rounds fuel executable_name = .ok table) :
    ∃ D, table = ([executable_name, .lit "ld.so"] ++ elements) ++ D ++ (if sys.vdso.isSome then [.lit "linux-vdso.so.1"] else []) ∧
      D.Nodup ∧ (∀ d ∈ D, d ∉ [executable_name, .lit "ld.so"] ++ elements) ∧
      ∀ c, c ∈ ([executable_name, .lit "ld.so"] ++ elements) ++ D ↔
        Reached sys ([executable_name, .lit "ld.so"] ++ elements) c := by
  obtain ⟨elements', helements, h⟩ := Outcome.bind_eq_ok_iff.mp h
  rw [preload_eq hpreload] at helements
  cases helements
  obtain ⟨res, hres, h⟩ := Outcome.bind_eq_ok_iff.mp h
  obtain ⟨hgrown, hclosed⟩ := fill_rounds_grows hres
  obtain ⟨D, rfl, hnodup, hfresh⟩ := hgrown.added
  refine ⟨D, ?_, hnodup, hfresh, fun c => ⟨hgrown.reached c, fun hreached => ?_⟩⟩
  · cases h
    split <;> simp
  · induction hreached with
    | seed hmem => exact List.mem_append_left _ hmem
    | needed ho hneeds ih => exact hclosed _ ih _ hneeds

end ldso.dependency
