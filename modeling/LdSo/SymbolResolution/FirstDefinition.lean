import LdSo.SymbolResolution.Scope

open cmodel

namespace ldso

open elf symbol_resolution

variable {sys : System} {m : Memory 64} {name : CString}

/-- No two objects of the list have entries of the name at the same address. -/
def DistinctAddresses (name : CString) (objs : List Object) : Prop :=
  objs.Pairwise fun a b => ∀ s ∈ a.file.symbols, ∀ t ∈ b.file.symbols, s.name = name → t.name = name →
    a.address s ≠ b.address t

/-- No object's table covers the first byte of an object: what lies at `l_addr`
is the object's ELF header. -/
def HeadersApart (objs : List Object) : Prop :=
  ∀ o ∈ objs, o.node.l_addr ≠ 0 → ∀ p ∈ objs, ∀ r ∈ p.tables, ¬ r.Contains o.node.l_addr

/-- The first byte of every object that is not at base 0. -/
def headers (objs : List Object) : List (Region 64) :=
  (objs.filter fun o => o.node.l_addr ≠ 0).map fun o => ⟨o.node.l_addr, 1⟩

namespace Object

variable {o : Object}

theorem gnu_table_mem {v : elf_addr} {t : GnuHash o.file.symbols} (h : o.gnu = some (v, t)) :
    ⟨v + o.node.l_addr, t.bytes.length⟩ ∈ o.tables := by
  simp [tables, h]

theorem sysv_table_mem {v : elf_addr} {t : SysvHash o.file.symbols} (h : o.sysv = some (v, t)) :
    ⟨v + o.node.l_addr, t.bytes.length⟩ ∈ o.tables := by
  simp [tables, h]

/-- Hiding what no table covers leaves an object loaded. -/
theorem Loaded.hide (h : o.Loaded sys m) {rs : List (Region 64)} (hdis : ∀ t ∈ o.tables, ∀ r ∈ rs, t.Disjoint r) :
    o.Loaded sys (m.hide rs) where
  disk := h.disk
  gnu v t ht := (h.gnu v t ht).hide (hdis _ (gnu_table_mem ht))
  sysv v t ht := (h.sysv v t ht).hide (hdis _ (sysv_table_mem ht))

theorem Loaded.mono {m' : Memory 64} (h : o.Loaded sys m) (hsub : m.Sub m') : o.Loaded sys m' where
  disk := h.disk
  gnu v t ht := hsub.holds (h.gnu v t ht)
  sysv v t ht := hsub.holds (h.sysv v t ht)

end Object

theorem hide_headers_loaded {objs : List Object} (hloaded : ∀ o ∈ objs, o.Loaded sys m)
    (hheaders : HeadersApart objs) :
    ∀ o ∈ objs, o.Loaded sys (m.hide (headers objs)) := by
  intro o ho
  refine (hloaded o ho).hide fun t ht r hr => ?_
  obtain ⟨p, hp, rfl⟩ := List.mem_map.mp hr
  obtain ⟨hmem, hne⟩ := List.mem_filter.mp hp
  intro a hta hra
  have heq : a = p.node.l_addr := by
    have hzero : (a - p.node.l_addr).toNat = 0 := Nat.lt_one_iff.mp hra
    have hsub : a - p.node.l_addr = 0 := BitVec.eq_of_toNat_eq hzero
    exact sub_eq_zero.mp hsub
  exact hheaders p hmem (by simpa using hne) o ho t ht (heq ▸ hta)

theorem hide_headers_unmapped {objs : List Object} {o : Object} (ho : o ∈ objs) (hne : o.node.l_addr ≠ 0) :
    (m.hide (headers objs)) o.node.l_addr = none := by
  refine if_pos ⟨⟨o.node.l_addr, 1⟩, List.mem_map.mpr ⟨o, List.mem_filter.mpr ⟨ho, by simpa using hne⟩, rfl⟩, ?_⟩
  simp [Region.Contains]

/-- When no object's `l_addr` is mapped, the search of the list faults, misses
everywhere, or finds an entry of the name. -/
theorem lookup_list_outcomes {objs : List Object} (hloaded : ∀ o ∈ objs, o.Loaded sys m)
    (hunmapped : ∀ o ∈ objs, o.node.l_addr ≠ 0 → m o.node.l_addr = none) :
    lookup_list sys m name (objs.map Object.node) = .fault ∨ lookup_list sys m name (objs.map Object.node) = .exit 1 ∨
      ∃ o ∈ objs, ∃ s ∈ o.file.symbols, s.name = name ∧
        lookup_list sys m name (objs.map Object.node) = .ok (o.address s) := by
  induction objs with
  | nil => exact Or.inr (Or.inl rfl)
  | cons o rest ih =>
    have htail := ih (fun p hp => hloaded p (by simp [hp])) (fun p hp => hunmapped p (by simp [hp]))
    have hobject : object_lookup sys m o.node name = .fault ∨ _ :=
      Object.object_lookup_outcomes (hloaded o (by simp)) (hunmapped o (by simp))
    simp only [List.map_cons, lookup_list]
    rcases hobject with
      h | h | ⟨s, hs, hname, h⟩
    · exact Or.inl (by rw [h]; rfl)
    · rw [h, Outcome.ok_bind, if_neg (by simp)]
      obtain h | h | ⟨p, hp, t, ht, hname, h⟩ := htail
      · exact Or.inl h
      · exact Or.inr (Or.inl h)
      · exact Or.inr (Or.inr ⟨p, by simp [hp], t, ht, hname, h⟩)
    · rw [h, Outcome.ok_bind]
      by_cases hzero : o.address s = 0
      · rw [if_neg (by simp [hzero])]
        obtain h | h | ⟨p, hp, t, ht, hname, h⟩ := htail
        · exact Or.inl h
        · exact Or.inr (Or.inl h)
        · exact Or.inr (Or.inr ⟨p, by simp [hp], t, ht, hname, h⟩)
      · rw [if_pos hzero]
        exact Or.inr (Or.inr ⟨o, by simp, s, hs, hname, rfl⟩)

/-- An address that is owed is the address of an entry of the name. -/
theorem FirstDefinition.entry {objs : List Object} {a : elf_addr} (h : FirstDefinition objs name (.ok a)) :
    ∃ o ∈ objs, ∃ s ∈ o.file.symbols, s.name = name ∧ a = o.address s := by
  have hdef : ∃ o ∈ objs, o.Defines name := by
    by_contra hnone
    push Not at hnone
    cases h.missing.mpr hnone
  rw [← List.append_nil objs] at h
  exact h.entry_of_defines hdef

/-- Where nothing is mapped at `l_addr`, a search that returns had the tables it went to. -/
theorem Object.ready_of_lookup {o : Object} {a : elf_addr} (ho : o.Loaded sys m)
    (hunmapped : o.node.l_addr ≠ 0 → m o.node.l_addr = none) (hlookup : object_lookup sys m o.node name = .ok a) :
    o.GnuReady ∧ ((∀ s, o.gnu_entry name = some s → o.address s = 0) → o.SysvReady) := by
  have hgnu : o.GnuReady := by
    by_contra hnot
    unfold object_lookup at hlookup
    rw [gnu_hash_lookup_not_ready ho hnot (hunmapped (not_or.mp hnot).2) name] at hlookup
    cases hlookup
  refine ⟨hgnu, fun hmiss => ?_⟩
  rw [object_lookup_of_gnu_miss ho hgnu hmiss] at hlookup
  by_contra hnot
  rw [hash_lookup_not_ready ho hnot (hunmapped (not_or.mp hnot).2) name] at hlookup
  cases hlookup

/-- When distinct objects have distinct addresses for the name, a search that
gives what is owed owes it to the condition. -/
theorem searchable_of_firstDefinition {objs : List Object} (hloaded : ∀ o ∈ objs, o.Loaded sys m)
    (hunmapped : ∀ o ∈ objs, o.node.l_addr ≠ 0 → m o.node.l_addr = none) (hne : FirstAtNonzero name objs)
    (hdistinct : DistinctAddresses name objs)
    (h : FirstDefinition objs name (lookup_list sys m name (objs.map Object.node))) : Searchable name objs := by
  induction objs with
  | nil => trivial
  | cons o rest ih =>
    have ho := hloaded o (by simp)
    have hmap := hunmapped o (by simp)
    have hrest : ∀ p ∈ rest, p.Loaded sys m := fun p hp => hloaded p (by simp [hp])
    have hrestmap : ∀ p ∈ rest, p.node.l_addr ≠ 0 → m p.node.l_addr = none := fun p hp => hunmapped p (by simp [hp])
    obtain ⟨hapart, htail⟩ := List.pairwise_cons.mp hdistinct
    have houtcomes : object_lookup sys m o.node name = .fault ∨ _ := Object.object_lookup_outcomes ho hmap
    by_cases hdef : o.Defines name
    · rw [Searchable, if_pos hdef]
      obtain ⟨s, hs, hsdef, hname, hr⟩ := (FirstDefinition.cons_iff_of_defines hdef).mp h
      have hnonzero := hne [] o rest rfl (by simp) s hs hsdef hname
      simp only [List.map_cons, lookup_list] at hr
      obtain ⟨res, hres, hr⟩ := Outcome.bind_eq_ok_iff.mp hr
      split at hr
      · obtain ⟨hgnu, hsysv⟩ := Object.ready_of_lookup ho hmap hres
        obtain rfl := Outcome.ok.inj hr
        exact Object.findsOwn_of_lookup ho hgnu hsysv hres hnonzero ⟨s, hs, hsdef, hname, rfl⟩
      · -- a later object would have to hold the address of `s`
        have hlater : lookup_list sys m name (rest.map Object.node) = .fault ∨ _ := lookup_list_outcomes hrest hrestmap
        obtain h | h | ⟨p, hp, t, ht, htname, h⟩ := hlater
        · rw [h] at hr
          cases hr
        · rw [h] at hr
          cases hr
        · rw [h] at hr
          exact absurd (Outcome.ok.inj hr).symm (hapart p hp s hs t ht hname htname)
    · rw [Searchable, if_neg hdef]
      rw [FirstDefinition.cons_iff_of_not_defines hdef] at h
      simp only [List.map_cons, lookup_list] at h
      have hzero : object_lookup sys m o.node name = .ok 0 := by
        obtain hr | hr | ⟨s, hs, hname, hr⟩ := houtcomes
        · rw [hr] at h
          exact absurd rfl h.ne_fault
        · exact hr
        · rw [hr, Outcome.ok_bind] at h
          by_cases hz : o.address s = 0
          · rw [hr, hz]
          · rw [if_pos hz] at h
            obtain ⟨p, hp, t, ht, htname, heq⟩ := h.entry
            exact absurd heq (hapart p hp s hs t ht hname htname)
      rw [hzero, Outcome.ok_bind, if_neg (by simp)] at h
      obtain ⟨hgnu, hsysv⟩ := Object.ready_of_lookup ho hmap hzero
      exact ⟨Object.skips_of_lookup ho hgnu hsysv hzero, ih hrest hrestmap (hne.tail hdef) htail h⟩

namespace symbol_resolution

/-- The lookup of a name in a link map gives what it owes in every memory that
holds the objects' tables when every object before the first definition can be
skipped and the first definition is found in its own object. Where addresses
are not shared between objects, this is the only case. -/
theorem link_map_lookup_first_definition {heap : Heap} {head : Option Nat} {ps : List Nat} {objs : List Object}
    (hchain : NextChain heap head ps) (hnodes : heap.nodes ps = objs.map Object.node)
    (hloaded : ∀ o ∈ objs, o.Loaded sys m) (hne : FirstAtNonzero name objs) :
    (Searchable name objs → ∀ m', (∀ o ∈ objs, o.Loaded sys m') →
      FirstDefinition objs name (link_map_lookup sys heap m' head name)) ∧
    (HeadersApart objs → DistinctAddresses name objs →
      (∀ m', (∀ o ∈ objs, o.Loaded sys m') → FirstDefinition objs name (link_map_lookup sys heap m' head name)) →
      Searchable name objs) := by
  constructor
  · intro h m' hm'
    rw [link_map_lookup_eq_list hchain, hnodes]
    exact firstDefinition_of_searchable hm' hne h
  · intro hheaders hdistinct h
    have hhidden := hide_headers_loaded hloaded hheaders
    have hfirst := h _ hhidden
    rw [link_map_lookup_eq_list hchain, hnodes] at hfirst
    exact searchable_of_firstDefinition hhidden (fun o ho hne => hide_headers_unmapped ho hne) hne hdistinct hfirst

theorem importer_loaded : ∀ o ∈ [importer, definer], o.Loaded importer_sys importer_memory := by
  intro o ho
  obtain rfl | rfl := List.mem_pair.mp ho
  · refine ⟨importer_on_disk, ?_, ?_⟩ <;> rintro v t ⟨⟩ <;> decide +kernel
  · refine ⟨definer_on_disk, ?_, ?_⟩ <;> rintro v t ⟨⟩ <;> decide +kernel

theorem importer_nonzero {objs : List Object} (h : ∀ o ∈ objs, o ∈ [importer, definer]) :
    FirstAtNonzero (.lit "f") objs := by
  have hall : ∀ o ∈ [importer, definer], ∀ s ∈ o.file.symbols, s.Defined → s.name = .lit "f" → o.address s ≠ 0 := by
    decide +kernel
  rintro pre o post rfl - s hs
  exact hall o (h o (by simp)) s hs

/-- With the importer first, the lookup of `f` gives the importer's own
undefined entry. -/
theorem link_map_lookup_finds_import :
    NextChain [importer.node, definer.node] (some 0) [0, 1] ∧
    Heap.nodes [importer.node, definer.node] [0, 1] = [importer, definer].map Object.node ∧
    (∀ o ∈ [importer, definer], o.Loaded importer_sys importer_memory) ∧
    FirstAtNonzero (.lit "f") [importer, definer] ∧
    ¬ FirstDefinition [importer, definer] (.lit "f")
      (link_map_lookup importer_sys [importer.node, definer.node] importer_memory (some 0) (.lit "f")) := by
  have hlookup : link_map_lookup importer_sys [importer.node, definer.node] importer_memory (some 0) (.lit "f") =
      .ok 0x1000 := by decide +kernel
  refine ⟨⟨rfl, _, rfl, rfl, _, rfl, rfl⟩, rfl, importer_loaded, importer_nonzero (by simp), ?_⟩
  rw [hlookup, FirstDefinition.cons_iff_of_not_defines (by decide +kernel),
    FirstDefinition.cons_iff_of_defines (by decide +kernel)]
  decide +kernel

/-- An executable that takes the address of `h`: its import of `h` has the address of
a PLT entry and is in the GNU table. -/
def taker : Object :=
  (Object.single ⟨0x1000, .lit "e", none, some 1, none⟩ (.lit "h") SHN_UNDEF 0x50 0x200 0x300 (by decide)
    (by decide)).hash_all 0x200 (by
      simp only [Object.single, ObjectFile.single, dyns_encode]
      rfl) (by decide) (by decide) (by
      rintro s ⟨⟩
      decide)

/-- Behind it an object that defines `f`, and one that imports it. -/
def f_definer : Object :=
  .single ⟨0x2000, .lit "b.so", none, some 2, some 0⟩ (.lit "f") 7 0x40 0x200 0x300 (by decide) (by decide)

def f_importer : Object :=
  .single ⟨0x3000, .lit "c.so", none, none, some 1⟩ (.lit "f") SHN_UNDEF 0 0x200 0x300 (by decide) (by decide)

def three_objects : List Object := [taker, f_definer, f_importer]

def three_sys : System :=
  .of_files [(.lit "e", taker.file.content), (.lit "b.so", f_definer.file.content),
    (.lit "c.so", f_importer.file.content)]

def three_memory : Memory 64 := three_objects.foldl Object.place fun _ => none

theorem three_loaded : ∀ o ∈ three_objects, o.Loaded three_sys three_memory := by
  have hdisk : ∀ o ∈ three_objects, o.file.OnDisk three_sys o.node.l_name := by decide +kernel
  intro o ho
  refine ⟨hdisk o ho, ?_, ?_⟩
  · obtain rfl | rfl | rfl : o = taker ∨ o = f_definer ∨ o = f_importer := by simpa [three_objects] using ho
    all_goals
      rintro v t ⟨⟩
      decide +kernel
  · obtain rfl | rfl | rfl : o = taker ∨ o = f_definer ∨ o = f_importer := by simpa [three_objects] using ho
    all_goals
      rintro v t ⟨⟩
      decide +kernel

/-- With the definer between the two others, its definition is found. -/
theorem link_map_lookup_finds_definition :
    FirstDefinition three_objects (.lit "f")
      (link_map_lookup three_sys (three_objects.map Object.node) three_memory (some 0) (.lit "f")) ∧
    Searchable (.lit "f") three_objects := by
  have hnonzero : FirstAtNonzero (.lit "f") three_objects := by
    have hall : ∀ o ∈ three_objects, ∀ s ∈ o.file.symbols, s.Defined → s.name = .lit "f" → o.address s ≠ 0 := by
      decide +kernel
    rintro pre o post hsplit - s hs
    exact hall o (by simp [hsplit]) s hs
  have hsearchable : Searchable (.lit "f") three_objects := by
    rw [three_objects, Searchable, if_neg (by decide +kernel), Searchable, if_pos (by decide +kernel)]
    refine ⟨⟨Or.inl rfl, Or.inl rfl, ?_, ?_⟩, Object.findsOwn_of_not_imported rfl (by decide +kernel) (by decide +kernel)⟩
    · rw [show taker.gnu_entry (.lit "f") = none by decide +kernel]
      rintro s ⟨⟩
    · rw [show taker.sysv_entry (.lit "f") = none by decide +kernel]
      rintro s ⟨⟩
  have hheaders : HeadersApart three_objects := by
    unfold HeadersApart
    decide +kernel
  have hdistinct : DistinctAddresses (.lit "f") three_objects := by
    unfold DistinctAddresses three_objects
    decide +kernel
  have h := @link_map_lookup_first_definition three_sys three_memory (.lit "f") (three_objects.map Object.node) (some 0)
    [0, 1, 2] three_objects ⟨rfl, _, rfl, rfl, _, rfl, rfl, _, rfl, rfl⟩ rfl three_loaded hnonzero
  exact ⟨h.1 hsearchable _ three_loaded, h.2 hheaders hdistinct (h.1 hsearchable)⟩

end symbol_resolution

end ldso
