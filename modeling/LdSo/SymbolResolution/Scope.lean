import LdSo.SymbolResolution.Lookup

open cmodel

namespace ldso.symbol_resolution

/-- The search of a list of objects, one after the other. -/
def lookup_list (sys : System) (m : Memory 64) (rela_name : CString) : List LinkMap → Outcome elf_addr
  | [] => .exit 1
  | next :: rest => do
    let res ← object_lookup sys m next rela_name
    if res ≠ 0 then .ok res else lookup_list sys m rela_name rest

/-- On a chain that ends, `link_map_lookup` searches the objects of its nodes. -/
theorem link_map_lookup_eq_list {sys : System} {heap : Heap} {m : Memory 64} {head : Option Nat} {ps : List Nat}
    (hchain : NextChain heap head ps) (rela_name : CString) :
    link_map_lookup sys heap m head rela_name = lookup_list sys m rela_name (heap.nodes ps) := by
  have hscan : ∀ (ps : List Nat) (start : Option Nat) (fuel : Nat), NextChain heap start ps → ps.length ≤ fuel →
      link_map_scan sys heap m rela_name fuel start = lookup_list sys m rela_name (heap.nodes ps) := by
    intro ps
    induction ps with
    | nil =>
      intro start fuel hps _
      have hnull : start = none := hps
      subst hnull
      cases fuel <;> rfl
    | cons p ps ih =>
      intro start fuel hps hfuel
      obtain ⟨hstart, v, hv, htail⟩ := hps
      subst hstart
      cases fuel with
      | zero => simp at hfuel
      | succ fuel =>
        have hnodes : heap.nodes (p :: ps) = v :: heap.nodes ps := List.filterMap_cons_some hv
        rw [hnodes]
        simp only [link_map_scan, lookup_list, hv, Outcome.ofOption_some, Outcome.ok_bind,
          ih v.l_next fuel htail (by simpa using hfuel)]
  exact hscan ps head heap.length hchain hchain.length_le

/-- What is found in a list is found in every list it begins. -/
theorem lookup_list_append {sys : System} {m : Memory 64} {rela_name : CString} {nodes more : List LinkMap}
    {a : elf_addr}
    (h : lookup_list sys m rela_name nodes = .ok a) : lookup_list sys m rela_name (nodes ++ more) = .ok a := by
  induction nodes with
  | nil => cases h
  | cons next rest ih =>
    simp only [lookup_list, List.cons_append] at h ⊢
    obtain ⟨res, hres, h⟩ := Outcome.bind_eq_ok_iff.mp h
    rw [hres, Outcome.ok_bind]
    split at h
    · next hne => rw [if_pos hne, h]
    · next hne => rw [if_neg hne, ih h]

/-- The search of an object looks at its name and address only. -/
theorem object_lookup_congr {sys : System} {m : Memory 64} {v v' : LinkMap} (hname : v'.l_name = v.l_name)
    (haddr : v'.l_addr = v.l_addr) (rela_name : CString) :
    object_lookup sys m v' rela_name = object_lookup sys m v rela_name := by
  cases v
  cases v'
  simp only at hname haddr
  subst hname haddr
  rfl

theorem lookup_list_keeps {sys : System} {m : Memory 64} {heap heap' : Heap} (hkeeps : heap.Keeps heap')
    {ps : List Nat} (hps : ∀ p ∈ ps, p < heap.length) (rela_name : CString) :
    lookup_list sys m rela_name (heap'.nodes ps) = lookup_list sys m rela_name (heap.nodes ps) := by
  induction ps with
  | nil => rfl
  | cons p ps ih =>
    have hv := List.getElem?_eq_getElem (hps p (by simp))
    obtain ⟨v', hv', hname, haddr⟩ := hkeeps p _ hv
    have hold : heap.nodes (p :: ps) = _ :: heap.nodes ps := List.filterMap_cons_some hv
    have hnew : heap'.nodes (p :: ps) = v' :: heap'.nodes ps := List.filterMap_cons_some hv'
    rw [hold, hnew, lookup_list, lookup_list, object_lookup_congr hname haddr, ih fun q hq => hps q (by simp [hq])]

/-- What is found in a list is found when the list and the memory grow. -/
theorem link_map_lookup_grow {sys : System} {heap heap' : Heap} {m m' : Memory 64} {head : Option Nat}
    {ps more : List Nat} {rela_name : CString} {a : elf_addr} (hchain : NextChain heap head ps)
    (hchain' : NextChain heap' head (ps ++ more))
    (hkeeps : heap.Keeps heap') (hsub : m.Sub m') (h : link_map_lookup sys heap m head rela_name = .ok a) :
    link_map_lookup sys heap' m' head rela_name = .ok a := by
  apply Outcome.eq_ok_of_le (link_map_lookup_mono hsub sys heap' head rela_name)
  rw [link_map_lookup_eq_list hchain] at h
  rw [link_map_lookup_eq_list hchain']
  have hnodes : heap'.nodes (ps ++ more) = heap'.nodes ps ++ heap'.nodes more := List.filterMap_append
  rw [hnodes]
  apply lookup_list_append
  rw [lookup_list_keeps hkeeps hchain.lt_length, h]

end ldso.symbol_resolution

namespace ldso

open symbol_resolution

variable {sys : System} {m : Memory 64} {name : CString}

namespace Object

variable {o : Object}

/-- The search passes over the object: no missing table is taken for one at
`l_addr`, and no entry of the name that is found has an address of its own. -/
def Skips (o : Object) (name : CString) : Prop :=
  o.GnuReady ∧ o.SysvReady ∧ (∀ s, o.gnu_entry name = some s → o.address s = 0) ∧
    ∀ s, o.sysv_entry name = some s → o.address s = 0

/-- The entry has the address of a definition of the name, if it is none itself. -/
def AtDefinition (o : Object) (name : CString) (s : Symbol) : Prop :=
  ∃ t ∈ o.file.symbols, t.Defined ∧ t.name = name ∧ o.address s = o.address t

/-- The search finds the object's own definition: as the first member of the GNU
table that has the name, or, when no member of the name has an address, as the first
entry of the name on the SysV chain that is searched. -/
def FindsOwn (o : Object) (name : CString) : Prop :=
  (∃ s, o.gnu_entry name = some s ∧ o.AtDefinition name s) ∨
    o.GnuReady ∧ o.SysvReady ∧ (∀ s, o.gnu_entry name = some s → o.address s = 0) ∧
      ∃ s, o.sysv_entry name = some s ∧ o.AtDefinition name s

theorem AtDefinition.defines {s : Symbol} (h : o.AtDefinition name s) : o.Defines name := by
  obtain ⟨t, ht, hdef, hname, -⟩ := h
  exact ⟨t, ht, hdef, hname⟩

theorem AtDefinition.self {s : Symbol} (hs : s ∈ o.file.symbols) (hdef : s.Defined) (hname : s.name = name) :
    o.AtDefinition name s := ⟨s, hs, hdef, hname, rfl⟩

theorem FindsOwn.defines (h : o.FindsOwn name) : o.Defines name := by
  obtain ⟨s, -, hs⟩ | ⟨-, -, -, s, -, hs⟩ := h
  · exact hs.defines
  · exact hs.defines

theorem gnuReady_of_entry {s : Symbol} (h : o.gnu_entry name = some s) : o.GnuReady := by
  obtain ⟨vt, hgnu, -⟩ := Option.bind_eq_some_iff.mp h
  exact Or.inl (by simp [hgnu])

/-- An object with a GNU table finds its own definition of a name, unless it imports the
name as well. -/
theorem findsOwn_of_not_imported (hgnu : o.gnu.isSome = true) (hdef : o.Defines name)
    (himports : ∀ s ∈ o.file.symbols, s.name = name → s.Defined) : o.FindsOwn name := by
  obtain ⟨s, hs⟩ := gnu_entry_of_defines hgnu hdef
  obtain ⟨hmem, hname⟩ := gnu_entry_named hs
  exact Or.inl ⟨s, hs, .self hmem (himports s hmem hname) hname⟩

/-- When no member of the name has an address, the SysV search decides. -/
theorem object_lookup_of_gnu_miss (ho : o.Loaded sys m) (hready : o.GnuReady)
    (hmiss : ∀ s, o.gnu_entry name = some s → o.address s = 0) :
    object_lookup sys m o.node name = hash_lookup sys m o.node name := by
  have hzero : o.node.addressOf (o.gnu_entry name) = 0 := by
    cases hs : o.gnu_entry name with
    | none => rfl
    | some s => exact hmiss s hs
  unfold object_lookup
  rw [gnu_hash_lookup_ready ho hready, hzero, Outcome.ok_bind]
  exact if_neg fun h => h rfl

theorem object_lookup_of_gnu_entry (ho : o.Loaded sys m) {s : Symbol} (hs : o.gnu_entry name = some s)
    (hne : o.address s ≠ 0) : object_lookup sys m o.node name = .ok (o.address s) := by
  unfold object_lookup
  rw [gnu_hash_lookup_ready ho (gnuReady_of_entry hs), hs, Outcome.ok_bind]
  exact if_pos hne

theorem object_lookup_of_skips (ho : o.Loaded sys m) (hskip : o.Skips name) :
    object_lookup sys m o.node name = .ok 0 := by
  obtain ⟨hgnu, hsysv, hmember, hentry⟩ := hskip
  rw [object_lookup_of_gnu_miss ho hgnu hmember, hash_lookup_ready ho hsysv]
  cases hs : o.sysv_entry name with
  | none => rfl
  | some s => exact congrArg Outcome.ok (hentry s hs)

/-- An object with both tables and no entry of the name is passed over. -/
theorem object_lookup_of_absent (ho : o.Loaded sys m) (hgnu : o.gnu.isSome = true) (hsysv : o.sysv.isSome = true)
    (habsent : ∀ s ∈ o.file.symbols, s.name ≠ name) : object_lookup sys m o.node name = .ok 0 := by
  refine object_lookup_of_skips ho ⟨Or.inl hgnu, Or.inl hsysv, ?_, ?_⟩
  · intro s hs
    obtain ⟨hmem, hname⟩ := gnu_entry_named hs
    exact absurd hname (habsent s hmem)
  · intro s hs
    obtain ⟨hmem, hname⟩ := sysv_entry_named hs
    exact absurd hname (habsent s hmem)

theorem object_lookup_of_findsOwn (ho : o.Loaded sys m) (hfinds : o.FindsOwn name)
    (hne : ∀ s ∈ o.file.symbols, s.Defined → s.name = name → o.address s ≠ 0) :
    ∃ s ∈ o.file.symbols, s.Defined ∧ s.name = name ∧ object_lookup sys m o.node name = .ok (o.address s) := by
  obtain ⟨s, hs, t, ht, htdef, htname, haddr⟩ | ⟨hgnu, hsysv, hmember, s, hs, t, ht, htdef, htname, haddr⟩ := hfinds
  · refine ⟨t, ht, htdef, htname, ?_⟩
    rw [object_lookup_of_gnu_entry ho hs (haddr ▸ hne t ht htdef htname), haddr]
  · refine ⟨t, ht, htdef, htname, ?_⟩
    rw [object_lookup_of_gnu_miss ho hgnu hmember, hash_lookup_ready ho hsysv, hs]
    exact congrArg Outcome.ok haddr

/-- A search that ends at a definition of the object finds its own. -/
theorem findsOwn_of_lookup {a : elf_addr} (ho : o.Loaded sys m) (hgnu : o.GnuReady)
    (hsysv : (∀ s, o.gnu_entry name = some s → o.address s = 0) → o.SysvReady)
    (hlookup : object_lookup sys m o.node name = .ok a) (hne : a ≠ 0)
    (hdef : ∃ t ∈ o.file.symbols, t.Defined ∧ t.name = name ∧ a = o.address t) : o.FindsOwn name := by
  by_cases hmember : ∀ u, o.gnu_entry name = some u → o.address u = 0
  · rw [object_lookup_of_gnu_miss ho hgnu hmember, hash_lookup_ready ho (hsysv hmember)] at hlookup
    obtain rfl := Outcome.ok.inj hlookup
    cases hu : o.sysv_entry name with
    | none => exact absurd (by rw [hu]; rfl) hne
    | some u =>
      rw [hu] at hdef
      exact Or.inr ⟨hgnu, hsysv hmember, hmember, u, hu, hdef⟩
  · push Not at hmember
    obtain ⟨u, hu, hne'⟩ := hmember
    rw [object_lookup_of_gnu_entry ho hu hne'] at hlookup
    obtain rfl := Outcome.ok.inj hlookup
    exact Or.inl ⟨u, hu, hdef⟩

/-- An object in which the search finds nothing is one that it passes over. -/
theorem skips_of_lookup (ho : o.Loaded sys m) (hgnu : o.GnuReady)
    (hsysv : (∀ s, o.gnu_entry name = some s → o.address s = 0) → o.SysvReady)
    (hlookup : object_lookup sys m o.node name = .ok 0) : o.Skips name := by
  have hmember : ∀ s, o.gnu_entry name = some s → o.address s = 0 := by
    intro s hs
    by_contra hne
    rw [object_lookup_of_gnu_entry ho hs hne] at hlookup
    exact hne (Outcome.ok.inj hlookup)
  rw [object_lookup_of_gnu_miss ho hgnu hmember, hash_lookup_ready ho (hsysv hmember)] at hlookup
  refine ⟨hgnu, hsysv hmember, hmember, fun s hs => ?_⟩
  rw [hs] at hlookup
  exact Outcome.ok.inj hlookup

/-- With both tables, an address that is found is that of an entry of the name. -/
theorem entry_of_lookup {a : elf_addr} (ho : o.Loaded sys m) (hgnu : o.gnu.isSome = true) (hsysv : o.sysv.isSome = true)
    (hlookup : object_lookup sys m o.node name = .ok a) (hne : a ≠ 0) :
    ∃ s ∈ o.file.symbols, s.name = name ∧ a = o.address s := by
  by_cases hmember : ∀ u, o.gnu_entry name = some u → o.address u = 0
  · rw [object_lookup_of_gnu_miss ho (Or.inl hgnu) hmember, hash_lookup_ready ho (Or.inl hsysv)] at hlookup
    obtain rfl := Outcome.ok.inj hlookup
    cases hu : o.sysv_entry name with
    | none => exact absurd (by rw [hu]; rfl) hne
    | some u => exact ⟨u, (sysv_entry_named hu).1, (sysv_entry_named hu).2, rfl⟩
  · push Not at hmember
    obtain ⟨u, hu, hne'⟩ := hmember
    rw [object_lookup_of_gnu_entry ho hu hne'] at hlookup
    exact ⟨u, (gnu_entry_named hu).1, (gnu_entry_named hu).2, (Outcome.ok.inj hlookup).symm⟩

/-- What the search of the SysV table alone may give. -/
theorem hash_lookup_outcomes (ho : o.Loaded sys m) (hunmapped : o.node.l_addr ≠ 0 → m o.node.l_addr = none) :
    hash_lookup sys m o.node name = .fault ∨ hash_lookup sys m o.node name = .ok 0 ∨
      ∃ s ∈ o.file.symbols, s.name = name ∧ hash_lookup sys m o.node name = .ok (o.address s) := by
  by_cases hsysv : o.SysvReady
  · rw [hash_lookup_ready ho hsysv]
    cases hs : o.sysv_entry name with
    | none => exact Or.inr (Or.inl rfl)
    | some u => exact Or.inr (Or.inr ⟨u, (sysv_entry_named hs).1, (sysv_entry_named hs).2, rfl⟩)
  · exact Or.inl (hash_lookup_not_ready ho hsysv (hunmapped (not_or.mp hsysv).2) name)

/-- When a missing table is not mapped at `l_addr` either, the search of the
object faults, misses, or finds an entry of the name. -/
theorem object_lookup_outcomes (ho : o.Loaded sys m) (hunmapped : o.node.l_addr ≠ 0 → m o.node.l_addr = none) :
    object_lookup sys m o.node name = .fault ∨ object_lookup sys m o.node name = .ok 0 ∨
      ∃ s ∈ o.file.symbols, s.name = name ∧ object_lookup sys m o.node name = .ok (o.address s) := by
  by_cases hgnu : o.GnuReady
  · by_cases hmember : ∀ s, o.gnu_entry name = some s → o.address s = 0
    · rw [object_lookup_of_gnu_miss ho hgnu hmember]
      exact hash_lookup_outcomes ho hunmapped
    · push Not at hmember
      obtain ⟨s, hs, hne⟩ := hmember
      obtain ⟨hmem, hname⟩ := gnu_entry_named hs
      exact Or.inr (Or.inr ⟨s, hmem, hname, object_lookup_of_gnu_entry ho hs hne⟩)
  · left
    unfold object_lookup
    rw [gnu_hash_lookup_not_ready ho hgnu (hunmapped (not_or.mp hgnu).2) name]
    rfl

/-- One of the tables leads to an address for the name. -/
def Provides (o : Object) (name : CString) : Prop :=
  o.node.addressOf (o.gnu_entry name) ≠ 0 ∨ o.node.addressOf (o.sysv_entry name) ≠ 0

instance (o : Object) (name : CString) : Decidable (o.Provides name) := inferInstanceAs (Decidable (_ ∨ _))

/-- With no table missing, the search of the object is defined. -/
theorem object_lookup_of_ready (ho : o.Loaded sys m) (hgnu : o.GnuReady) (hsysv : o.SysvReady) (name : CString) :
    ∃ a, object_lookup sys m o.node name = .ok a ∧ (a ≠ 0 ↔ o.Provides name) := by
  have hfirst := gnu_hash_lookup_ready ho hgnu name
  have hsecond := hash_lookup_ready ho hsysv name
  by_cases hzero : o.node.addressOf (o.gnu_entry name) = 0
  · refine ⟨o.node.addressOf (o.sysv_entry name), ?_, ?_⟩
    · rw [object_lookup, hfirst, Outcome.ok_bind, if_neg (by simpa using hzero), hsecond]
    · simp [Provides, hzero]
  · refine ⟨o.node.addressOf (o.gnu_entry name), ?_, ?_⟩
    · rw [object_lookup, hfirst, Outcome.ok_bind, if_pos hzero]
    · exact ⟨Or.inl, fun _ => hzero⟩

end Object

/-- With no table missing, the search of the list finds exactly the names that
an object provides. -/
theorem lookup_list_found_iff {objs : List Object} (hloaded : ∀ o ∈ objs, o.Loaded sys m)
    (hready : ∀ o ∈ objs, o.GnuReady ∧ o.SysvReady) :
    (∃ a, lookup_list sys m name (objs.map Object.node) = .ok a) ↔ ∃ o ∈ objs, o.Provides name := by
  induction objs with
  | nil => simp [lookup_list]
  | cons o rest ih =>
    have hrest := ih (fun p hp => hloaded p (by simp [hp])) (fun p hp => hready p (by simp [hp]))
    obtain ⟨hgnu, hsysv⟩ := hready o (by simp)
    obtain ⟨a, ha, hprovides⟩ := Object.object_lookup_of_ready (hloaded o (by simp)) hgnu hsysv name
    rw [List.map_cons, lookup_list, ha, Outcome.ok_bind, List.exists_mem_cons_iff, ← hrest, ← hprovides]
    by_cases hzero : a = 0
    · simp [hzero]
    · rw [if_pos hzero]
      exact ⟨fun _ => Or.inl hzero, fun _ => ⟨a, rfl⟩⟩

/-- The result a lookup of the name owes its caller: the address of a symbol
that the first defining object defines, and `_exit(1)` exactly when no object
of the list defines the name. -/
structure FirstDefinition (objs : List Object) (name : CString) (r : Outcome elf_addr) : Prop where
  found : ∀ pre o post, objs = pre ++ o :: post → (∀ x ∈ pre, ¬ x.Defines name) → o.Defines name →
    ∃ s ∈ o.file.symbols, s.Defined ∧ s.name = name ∧ r = .ok (o.address s)
  missing : r = .exit 1 ↔ ∀ o ∈ objs, ¬ o.Defines name

namespace FirstDefinition

variable {objs rest : List Object} {o : Object} {r : Outcome elf_addr}

theorem nil_iff : FirstDefinition [] name r ↔ r = .exit 1 := by
  constructor
  · intro h
    exact h.missing.mpr (by simp)
  · rintro rfl
    exact ⟨fun pre o post h => by simp at h, by simp⟩

theorem cons_iff_of_defines (hdef : o.Defines name) :
    FirstDefinition (o :: rest) name r ↔
      ∃ s ∈ o.file.symbols, s.Defined ∧ s.name = name ∧ r = .ok (o.address s) := by
  constructor
  · intro h
    exact h.found [] o rest rfl (by simp) hdef
  · rintro ⟨s, hs, hsdef, hname, rfl⟩
    constructor
    · intro pre p post hsplit hpre _
      cases pre with
      | nil =>
        obtain ⟨rfl, -⟩ := List.cons.inj hsplit
        exact ⟨s, hs, hsdef, hname, rfl⟩
      | cons q pre =>
        obtain ⟨rfl, -⟩ := List.cons.inj hsplit
        exact absurd hdef (hpre _ (by simp))
    · simp only [reduceCtorEq, false_iff, not_forall, not_not]
      exact ⟨o, by simp, hdef⟩

theorem cons_iff_of_not_defines (hdef : ¬ o.Defines name) :
    FirstDefinition (o :: rest) name r ↔ FirstDefinition rest name r := by
  constructor
  · intro h
    refine ⟨fun pre p post hsplit hpre hp => ?_, ?_⟩
    · refine h.found (o :: pre) p post (by rw [hsplit]; rfl) ?_ hp
      intro x hx
      obtain rfl | hx := List.mem_cons.mp hx
      · exact hdef
      · exact hpre x hx
    · rw [h.missing]
      simp [hdef]
  · intro h
    refine ⟨fun pre p post hsplit hpre hp => ?_, ?_⟩
    · cases pre with
      | nil =>
        obtain ⟨rfl, -⟩ := List.cons.inj hsplit
        exact absurd hp hdef
      | cons q pre =>
        obtain ⟨-, hsplit⟩ := List.cons.inj hsplit
        exact h.found pre p post hsplit (fun x hx => hpre x (by simp [hx])) hp
    · rw [h.missing]
      simp [hdef]

/-- Objects that do not define the name make no difference in front. -/
theorem append_iff_of_not_defines {objs : List Object} (hdef : ∀ o ∈ objs, ¬ o.Defines name) :
    FirstDefinition (objs ++ rest) name r ↔ FirstDefinition rest name r := by
  induction objs with
  | nil => rfl
  | cons o objs ih =>
    rw [List.cons_append, cons_iff_of_not_defines (hdef o (by simp))]
    exact ih fun x hx => hdef x (by simp [hx])

/-- When an object in front defines the name, the address is that of an entry there. -/
theorem entry_of_defines {objs : List Object} {a : elf_addr} (h : FirstDefinition (objs ++ rest) name (.ok a))
    (hdef : ∃ o ∈ objs, o.Defines name) : ∃ o ∈ objs, ∃ s ∈ o.file.symbols, s.name = name ∧ a = o.address s := by
  induction objs with
  | nil => simp at hdef
  | cons o objs ih =>
    rw [List.cons_append] at h
    by_cases ho : o.Defines name
    · obtain ⟨s, hs, -, hname, hr⟩ := (cons_iff_of_defines ho).mp h
      exact ⟨o, by simp, s, hs, hname, Outcome.ok.inj hr⟩
    · obtain ⟨x, hx, hxdef⟩ := hdef
      have hx' : x ∈ objs := (List.mem_cons.mp hx).resolve_left fun heq => ho (heq ▸ hxdef)
      obtain ⟨y, hy, s, hs, hname, haddr⟩ := ih ((cons_iff_of_not_defines ho).mp h) ⟨x, hx', hxdef⟩
      exact ⟨y, by simp [hy], s, hs, hname, haddr⟩

/-- A fault is never the result that is owed. -/
theorem ne_fault (h : FirstDefinition objs name r) : r ≠ .fault := by
  induction objs with
  | nil =>
    rw [nil_iff.mp h]
    simp
  | cons o rest ih =>
    by_cases hdef : o.Defines name
    · obtain ⟨s, -, -, -, hr⟩ := (cons_iff_of_defines hdef).mp h
      rw [hr]
      simp
    · exact ih ((cons_iff_of_not_defines hdef).mp h)

end FirstDefinition

/-- Every object before the first definition is skipped, and the first object
that defines the name finds its own definition. -/
def Searchable (name : CString) : List Object → Prop
  | [] => True
  | o :: rest => if o.Defines name then o.FindsOwn name else o.Skips name ∧ Searchable name rest

/-- The first object that defines the name defines it at non-zero addresses only. -/
def FirstAtNonzero (name : CString) (objs : List Object) : Prop :=
  ∀ pre o post, objs = pre ++ o :: post → (∀ x ∈ pre, ¬ x.Defines name) →
    ∀ s ∈ o.file.symbols, s.Defined → s.name = name → o.address s ≠ 0

theorem FirstAtNonzero.tail {objs : List Object} {o : Object} (h : FirstAtNonzero name (o :: objs))
    (hdef : ¬ o.Defines name) : FirstAtNonzero name objs := by
  intro pre p post hsplit hpre
  apply h (o :: pre) p post (by rw [hsplit]; rfl)
  intro x hx
  obtain rfl | hx := List.mem_cons.mp hx
  · exact hdef
  · exact hpre x hx

theorem firstDefinition_of_searchable {objs : List Object} (hloaded : ∀ o ∈ objs, o.Loaded sys m)
    (hne : FirstAtNonzero name objs) (h : Searchable name objs) :
    FirstDefinition objs name (lookup_list sys m name (objs.map Object.node)) := by
  induction objs with
  | nil => exact FirstDefinition.nil_iff.mpr rfl
  | cons o rest ih =>
    have ho := hloaded o (by simp)
    by_cases hdef : o.Defines name
    · rw [Searchable, if_pos hdef] at h
      rw [FirstDefinition.cons_iff_of_defines hdef]
      have hown := hne [] o rest rfl (by simp)
      obtain ⟨s, hs, hsdef, hname, hlookup⟩ := Object.object_lookup_of_findsOwn ho h hown
      refine ⟨s, hs, hsdef, hname, ?_⟩
      simp only [List.map_cons, lookup_list, hlookup, Outcome.ok_bind]
      exact if_pos (hown s hs hsdef hname)
    · rw [Searchable, if_neg hdef] at h
      rw [FirstDefinition.cons_iff_of_not_defines hdef]
      have htail := ih (fun p hp => hloaded p (by simp [hp])) (hne.tail hdef) h.2
      simp only [List.map_cons, lookup_list, Object.object_lookup_of_skips ho h.1, Outcome.ok_bind]
      rw [if_neg (by simp)]
      exact htail

end ldso
