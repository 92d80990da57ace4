import LdSo.SymbolResolution.FirstDefinition

open cmodel

namespace ldso.symbol_resolution

open elf elf_manipulation utility

variable {sys : System} {obj : Nat → Option Object}

/-- The node is that of `obj p`, an object that carries both hash tables, or,
where there is none, that of the vdso. -/
def Represents (sys : System) (heap : Heap) (obj : Nat → Option Object) (p : Nat) : Prop :=
  ∃ v, heap[p]? = some v ∧
    match obj p with
    | none => v.l_name = .lit "linux-vdso.so.1"
    | some o => v.l_name = o.node.l_name ∧ v.l_addr = o.node.l_addr ∧ o.file.OnDisk sys v.l_name ∧
        o.gnu.isSome = true ∧ o.sysv.isSome = true

theorem Represents.append {heap : Heap} {p : Nat} (h : Represents sys heap obj p) (more : Heap) :
    Represents sys (heap ++ more) obj p := by
  obtain ⟨v, hv, hobj⟩ := h
  exact ⟨v, by rw [List.getElem?_append_left (List.getElem?_eq_some_iff.mp hv).1, hv], hobj⟩

/-- What is assumed of the search for a name: up to the first object that
defines it the objects are loaded, none has an entry of the name that it only
imports, and the definition is not at address 0. -/
def Sound (sys : System) (m : Memory 64) (obj : Nat → Option Object) (name : CString) : List Nat → Prop
  | [] => True
  | p :: ps =>
    match obj p with
    | none => True
    | some o => o.Loaded sys m ∧
        if o.Defines name then ∀ s ∈ o.file.symbols, s.Defined → s.name = name → o.address s ≠ 0
        else (∀ s ∈ o.file.symbols, s.name ≠ name) ∧ Sound sys m obj name ps

theorem Sound.mono {m m' : Memory 64} {name : CString} {ps : List Nat} (h : Sound sys m obj name ps)
    (hsub : m.Sub m') :
    Sound sys m' obj name ps := by
  induction ps with
  | nil => trivial
  | cons p ps ih =>
    unfold Sound at h ⊢
    split
    · trivial
    · next o ho =>
      rw [ho] at h
      obtain ⟨hload, h⟩ := h
      refine ⟨hload.mono hsub, ?_⟩
      split
      · next hdef =>
        rw [if_pos hdef] at h
        exact h
      · next hdef =>
        rw [if_neg hdef] at h
        exact ⟨h.1, ih h.2⟩

/-- Some object of the list defines the name, no vdso comes before it, and the first
that does finds its own definition. -/
def Reaches (obj : Nat → Option Object) (name : CString) : List Nat → Prop
  | [] => False
  | p :: ps =>
    match obj p with
    | none => False
    | some o => if o.Defines name then o.FindsOwn name else Reaches obj name ps

/-- The list's last node is the first object on it that defines the name, and it finds
its own definition. -/
def ReachedLast (obj : Nat → Option Object) (name : CString) (ps : List Nat) : Prop :=
  ∃ before p o, ps = before ++ [p] ∧ obj p = some o ∧ o.FindsOwn name ∧ ∀ q ∈ before, ∀ x ∈ obj q, ¬ x.Defines name

/-- An entry of the vdso ends the process. -/
theorem object_lookup_vdso {m : Memory 64} {v : LinkMap} {name : CString} {a : elf_addr}
    (hname : v.l_name = .lit "linux-vdso.so.1") (hfile : sys.file (.lit "linux-vdso.so.1") = none) :
    object_lookup sys m v name ≠ .ok a := by
  intro h
  unfold object_lookup gnu_hash_lookup at h
  obtain ⟨res, hgnu, -⟩ := Outcome.bind_eq_ok_iff.mp h
  obtain ⟨elf, -, hgnu⟩ := Outcome.bind_eq_ok_iff.mp hgnu
  obtain ⟨strtab, hstrtab, -⟩ := Outcome.bind_eq_ok_iff.mp hgnu
  unfold get_section get_section_header at hstrtab
  rw [hname, show xopen sys (.lit "linux-vdso.so.1") = .exit 1 by simp [xopen, hfile]] at hstrtab
  cases hstrtab

section Search

variable {heap : Heap} {m : Memory 64} {name : CString}

/-- The search goes on behind an object that has no entry of the name. -/
theorem lookup_list_of_absent {o : Object} {v : LinkMap} {vs : List LinkMap} (hname : v.l_name = o.node.l_name)
    (haddr : v.l_addr = o.node.l_addr) (hload : o.Loaded sys m) (hgnu : o.gnu.isSome = true) (hsysv : o.sysv.isSome = true)
    (habsent : ∀ s ∈ o.file.symbols, s.name ≠ name) : lookup_list sys m name (v :: vs) = lookup_list sys m name vs := by
  rw [lookup_list, object_lookup_congr hname haddr, Object.object_lookup_of_absent hload hgnu hsysv habsent,
    Outcome.ok_bind, if_neg (by simp)]

/-- A search that is in reach finds what is owed, whatever comes behind. -/
theorem lookup_list_of_reaches {ps : List Nat} (hobj : ∀ p ∈ ps, Represents sys heap obj p)
    (hsound : Sound sys m obj name ps) (hreach : Reaches obj name ps) :
    ∃ a, lookup_list sys m name (heap.nodes ps) = .ok a ∧
      ∀ rest, FirstDefinition (ps.filterMap obj ++ rest) name (.ok a) := by
  induction ps with
  | nil => cases hreach
  | cons p ps ih =>
    obtain ⟨v, hv, hnode⟩ := hobj p (by simp)
    have hnodes : heap.nodes (p :: ps) = v :: heap.nodes ps := List.filterMap_cons_some hv
    unfold Sound at hsound
    unfold Reaches at hreach
    rw [hnodes]
    cases ho : obj p with
    | none =>
      rw [ho] at hreach
      cases hreach
    | some o =>
      rw [ho] at hnode hsound hreach
      change if o.Defines name then o.FindsOwn name else Reaches obj name ps at hreach
      obtain ⟨hname, haddr, -, hgnu, hsysv⟩ := hnode
      obtain ⟨hload, hsound⟩ := hsound
      rw [List.filterMap_cons_some ho]
      by_cases hdef : o.Defines name
      · rw [if_pos hdef] at hsound hreach
        obtain ⟨s, hs, hsdef, hsname, hlookup⟩ := Object.object_lookup_of_findsOwn hload hreach hsound
        refine ⟨o.address s, ?_, fun rest => ?_⟩
        · rw [lookup_list, object_lookup_congr hname haddr, hlookup, Outcome.ok_bind]
          exact if_pos (hsound s hs hsdef hsname)
        · exact (FirstDefinition.cons_iff_of_defines hdef).mpr ⟨s, hs, hsdef, hsname, rfl⟩
      · rw [if_neg hdef] at hsound hreach
        obtain ⟨habsent, hsound⟩ := hsound
        obtain ⟨a, hlookup, hfirst⟩ := ih (fun q hq => hobj q (by simp [hq])) hsound hreach
        refine ⟨a, ?_, fun rest => (FirstDefinition.cons_iff_of_not_defines hdef).mpr (hfirst rest)⟩
        rw [lookup_list_of_absent hname haddr hload hgnu hsysv habsent, hlookup]

/-- A search that returns what is owed was in reach, when the member of the name
that a definer's GNU table gives is not at 0. -/
theorem reaches_of_lookup_list {ps : List Nat} {a : elf_addr} {rest : List Object}
    (hfile : sys.file (.lit "linux-vdso.so.1") = none) (hobj : ∀ p ∈ ps, Represents sys heap obj p)
    (hsound : Sound sys m obj name ps)
    (hmember : ∀ p ∈ ps, ∀ o ∈ obj p, o.Defines name → ∀ s, o.gnu_entry name = some s → o.address s ≠ 0)
    (hlookup : lookup_list sys m name (heap.nodes ps) = .ok a)
    (hfirst : FirstDefinition (ps.filterMap obj ++ rest) name (.ok a)) : Reaches obj name ps := by
  induction ps with
  | nil => cases hlookup
  | cons p ps ih =>
    obtain ⟨v, hv, hnode⟩ := hobj p (by simp)
    have hnodes : heap.nodes (p :: ps) = v :: heap.nodes ps := List.filterMap_cons_some hv
    rw [hnodes] at hlookup
    unfold Sound at hsound
    unfold Reaches
    cases ho : obj p with
    | none =>
      rw [ho] at hnode
      obtain ⟨res, hres, -⟩ := Outcome.bind_eq_ok_iff.mp hlookup
      exact absurd hres (object_lookup_vdso hnode hfile)
    | some o =>
      rw [ho] at hnode hsound
      rw [List.filterMap_cons_some ho, List.cons_append] at hfirst
      obtain ⟨hname, haddr, -, hgnu, hsysv⟩ := hnode
      obtain ⟨hload, hsound⟩ := hsound
      by_cases hdef : o.Defines name
      · rw [if_pos hdef] at hsound
        obtain ⟨s, hs⟩ := Object.gnu_entry_of_defines hgnu hdef
        have hne := hmember p (by simp) o ho hdef s hs
        rw [lookup_list, object_lookup_congr hname haddr, Object.object_lookup_of_gnu_entry hload hs hne, Outcome.ok_bind,
          if_pos hne] at hlookup
        obtain ⟨t, ht, htdef, htname, heq⟩ := (FirstDefinition.cons_iff_of_defines hdef).mp hfirst
        exact (if_pos hdef).mpr (Or.inl ⟨s, hs, t, ht, htdef, htname, Outcome.ok.inj (hlookup.trans heq)⟩)
      · rw [if_neg hdef] at hsound
        obtain ⟨habsent, hsound⟩ := hsound
        rw [lookup_list_of_absent hname haddr hload hgnu hsysv habsent] at hlookup
        rw [FirstDefinition.cons_iff_of_not_defines hdef] at hfirst
        exact (if_neg hdef).mpr (ih (fun q hq => hobj q (by simp [hq])) hsound
          (fun q hq => hmember q (by simp [hq])) hlookup hfirst)

/-- The search of one node returns for an object that defines the name only. -/
theorem defines_of_lookup_one {p : Nat} {a : elf_addr} (hfile : sys.file (.lit "linux-vdso.so.1") = none)
    (hobj : Represents sys heap obj p) (hsound : Sound sys m obj name [p])
    (hlookup : lookup_list sys m name (heap.nodes [p]) = .ok a) :
    ∃ o, obj p = some o ∧ o.Loaded sys m ∧ o.gnu.isSome = true ∧ o.sysv.isSome = true ∧ o.Defines name ∧
      object_lookup sys m o.node name = .ok a ∧ a ≠ 0 := by
  obtain ⟨v, hv, hnode⟩ := hobj
  have hnodes : heap.nodes [p] = [v] := List.filterMap_cons_some hv
  rw [hnodes] at hlookup
  unfold Sound at hsound
  cases ho : obj p with
  | none =>
    rw [ho] at hnode
    obtain ⟨res, hres, -⟩ := Outcome.bind_eq_ok_iff.mp hlookup
    exact absurd hres (object_lookup_vdso hnode hfile)
  | some o =>
    rw [ho] at hnode hsound
    obtain ⟨hname, haddr, -, hgnu, hsysv⟩ := hnode
    obtain ⟨hload, hsound⟩ := hsound
    refine ⟨o, rfl, hload, hgnu, hsysv, ?_, ?_⟩
    · by_contra hdef
      rw [if_neg hdef] at hsound
      rw [lookup_list_of_absent hname haddr hload hgnu hsysv hsound.1] at hlookup
      cases hlookup
    · rw [lookup_list, object_lookup_congr hname haddr] at hlookup
      obtain ⟨res, hres, hlookup⟩ := Outcome.bind_eq_ok_iff.mp hlookup
      split at hlookup
      · next hne =>
        obtain rfl := Outcome.ok.inj hlookup
        exact ⟨hres, hne⟩
      · cases hlookup

end Search

end ldso.symbol_resolution
