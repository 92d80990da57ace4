import LdSo.Libdl
import LdSo.SymbolResolution.Absent
import LdSo.SymbolResolution.FirstDefinition

open cmodel

namespace ldso

open elf symbol_resolution

variable {sys : System} {m : Memory 64} {o : Object} {name : CString}

namespace Object

/-- What a search of the object for the name owes: the address of a definition,
and NULL exactly when there is none. -/
structure Answers (o : Object) (name : CString) (a : elf_addr) : Prop where
  defined : o.Defines name → ∃ s ∈ o.file.symbols, s.Defined ∧ s.name = name ∧ a = o.address s
  null : a = 0 ↔ ¬ o.Defines name

/-- The first member of that name in the object's GNU table leads to a definition,
at an address that is not taken for NULL. -/
def GnuFinds (o : Object) (name : CString) : Prop :=
  ∃ s, o.gnu_entry name = some s ∧ o.AtDefinition name s ∧ o.address s ≠ 0

theorem GnuFinds.ready (h : o.GnuFinds name) : o.GnuReady := by
  obtain ⟨s, hs, -⟩ := h
  exact gnuReady_of_entry hs

/-- The GNU search alone answers when it finds what the object defines, and no import
of a name that the object does not define. -/
theorem answers_gnu_entry_iff :
    o.Answers name (o.node.addressOf (o.gnu_entry name)) ↔
      (o.Defines name → o.GnuFinds name) ∧ (¬ o.Defines name → ∀ s, o.gnu_entry name = some s → o.address s = 0) := by
  constructor
  · intro h
    constructor
    · intro hdef
      have hne : o.node.addressOf (o.gnu_entry name) ≠ 0 := fun hzero => h.null.mp hzero hdef
      cases hs : o.gnu_entry name with
      | none => exact absurd (by rw [hs]; rfl) hne
      | some s =>
        rw [hs] at hne
        obtain ⟨t, ht, htdef, htname, haddr⟩ := h.defined hdef
        rw [hs] at haddr
        exact ⟨s, hs, ⟨t, ht, htdef, htname, haddr⟩, hne⟩
    · intro hdef s hs
      have hzero := h.null.mpr hdef
      rw [hs] at hzero
      exact hzero
  · rintro ⟨hfinds, hmiss⟩
    by_cases hdef : o.Defines name
    · obtain ⟨s, hs, ⟨t, ht, htdef, htname, haddr⟩, hne⟩ := hfinds hdef
      rw [hs]
      exact ⟨fun _ => ⟨t, ht, htdef, htname, haddr⟩, iff_of_false hne fun hnot => hnot hdef⟩
    · have hzero : o.node.addressOf (o.gnu_entry name) = 0 := by
        cases hs : o.gnu_entry name with
        | none => rfl
        | some s => exact hmiss hdef s hs
      exact ⟨fun hdefines => absurd hdefines hdef, iff_of_true hzero hdef⟩

theorem object_lookup_of_gnuFinds (ho : o.Loaded sys m) (h : o.GnuFinds name) :
    object_lookup sys m o.node name = gnu_hash_lookup sys m o.node name := by
  have hready := h.ready
  obtain ⟨s, hs, -, hne⟩ := h
  rw [object_lookup_of_gnu_entry ho hs hne, gnu_hash_lookup_ready ho hready, hs]
  rfl

/-- Where the first byte of the object is not mapped, an answer needs the table
or the address 0. -/
theorem ready_of_gnu_hash_lookup {a : elf_addr} (ho : o.Loaded sys m)
    (hunmapped : o.node.l_addr ≠ 0 → m o.node.l_addr = none) (h : gnu_hash_lookup sys m o.node name = .ok a) :
    o.GnuReady := by
  by_contra hnot
  rw [gnu_hash_lookup_not_ready ho hnot (hunmapped (not_or.mp hnot).2) name] at h
  cases h

/-- The object is loaded still when its header is not mapped. -/
theorem Loaded.hide_header (ho : o.Loaded sys m) (hheader : HeadersApart [o]) : o.Loaded sys (m.hide (headers [o])) :=
  hide_headers_loaded (by simpa using ho) hheader o (by simp)

end Object

namespace libdl

variable {heap : Heap} {handle : Nat}

theorem _dlsym_eq (hnode : heap[handle]? = some o.node) (m : Memory 64) (name : CString) :
    _dlsym sys ⟨heap, m⟩ handle name = gnu_hash_lookup sys m o.node name := by
  simp [_dlsym, hnode]

/-- `_dlsym` answers for an object with a GNU table whose first member of the name
is no import, and for one at 0 as long as there is nothing to find. -/
theorem _dlsym_answers_iff (hnode : heap[handle]? = some o.node) (hloaded : o.Loaded sys m)
    (hheader : HeadersApart [o]) :
    (∀ m', o.Loaded sys m' → ∃ a, _dlsym sys ⟨heap, m'⟩ handle name = .ok a ∧ o.Answers name a) ↔
      o.GnuReady ∧ (o.Defines name → o.GnuFinds name) ∧
        (¬ o.Defines name → ∀ s, o.gnu_entry name = some s → o.address s = 0) := by
  simp only [_dlsym_eq hnode]
  constructor
  · intro h
    have hhidden := hloaded.hide_header hheader
    obtain ⟨a, ha, hanswers⟩ := h _ hhidden
    have hready := Object.ready_of_gnu_hash_lookup hhidden (hide_headers_unmapped (by simp)) ha
    rw [Object.gnu_hash_lookup_ready hhidden hready] at ha
    obtain rfl := Outcome.ok.inj ha
    exact ⟨hready, Object.answers_gnu_entry_iff.mp hanswers⟩
  · rintro ⟨hready, hfinds⟩ m' hm'
    exact ⟨_, Object.gnu_hash_lookup_ready hm' hready name, Object.answers_gnu_entry_iff.mpr hfinds⟩

/-- `_dlsym` answers as the object's own search does, GNU table first and SysV
table second, for the names that the GNU table finds, and for the names without a
definition that the search passes over. The first part is the answer alone. -/
theorem _dlsym_agrees_iff (hnode : heap[handle]? = some o.node) (hloaded : o.Loaded sys m)
    (hheader : HeadersApart [o]) :
    ((∀ m', o.Loaded sys m' → ∃ a, _dlsym sys ⟨heap, m'⟩ handle name = .ok a ∧ o.Answers name a) ↔
      o.GnuReady ∧ (o.Defines name → o.GnuFinds name) ∧
        (¬ o.Defines name → ∀ s, o.gnu_entry name = some s → o.address s = 0)) ∧
    ((∀ m', o.Loaded sys m' → ∃ a, _dlsym sys ⟨heap, m'⟩ handle name = .ok a ∧ o.Answers name a ∧
        object_lookup sys m' o.node name = .ok a) ↔
      o.GnuFinds name ∨ ¬ o.Defines name ∧ o.Skips name) := by
  have hanswers := @_dlsym_answers_iff sys m o name heap handle hnode hloaded hheader
  refine ⟨hanswers, ?_⟩
  constructor
  · intro h
    have hcondition := hanswers.mp fun m' hm' => by
      obtain ⟨a, ha, hanswer, -⟩ := h m' hm'
      exact ⟨a, ha, hanswer⟩
    by_cases hdef : o.Defines name
    · exact Or.inl (hcondition.2.1 hdef)
    · have hhidden := hloaded.hide_header hheader
      obtain ⟨a, -, hanswer, hlookup⟩ := h _ hhidden
      rw [hanswer.null.mpr hdef] at hlookup
      obtain ⟨hgnu, hsysv⟩ := Object.ready_of_lookup hhidden (hide_headers_unmapped (by simp)) hlookup
      exact Or.inr ⟨hdef, Object.skips_of_lookup hhidden hgnu hsysv hlookup⟩
  · rintro (hfinds | ⟨hdef, hskips⟩) m' hm'
    · obtain ⟨a, ha, hanswer⟩ := hanswers.mpr ⟨hfinds.ready, fun _ => hfinds, fun h => absurd hfinds.choose_spec.2.1.defines h⟩ m' hm'
      refine ⟨a, ha, hanswer, ?_⟩
      rw [Object.object_lookup_of_gnuFinds hm' hfinds, ← _dlsym_eq hnode, ha]
    · obtain ⟨a, ha, hanswer⟩ := hanswers.mpr ⟨hskips.1, fun h => absurd h hdef, fun _ => hskips.2.2.1⟩ m' hm'
      refine ⟨a, ha, hanswer, ?_⟩
      rw [Object.object_lookup_of_skips hm' hskips, hanswer.null.mpr hdef]

/-- The library with both tables answers for its `f`. -/
theorem _dlsym_finds :
    ∃ a, _dlsym importer_sys ⟨[importer.node, definer.node], importer_memory⟩ 1 (.lit "f") = .ok a ∧
      definer.Answers (.lit "f") a ∧ object_lookup importer_sys importer_memory definer.node (.lit "f") = .ok a := by
  have hloaded : definer.Loaded importer_sys importer_memory := importer_loaded definer (by simp)
  have hheader : HeadersApart [definer] := by
    unfold HeadersApart
    decide +kernel
  have hfinds : definer.GnuFinds (.lit "f") :=
    ⟨⟨.lit "f", 1, 7, 0x40, 0⟩, by decide +kernel, .self (by decide +kernel) (by decide +kernel) rfl, by decide +kernel⟩
  exact ((@_dlsym_agrees_iff importer_sys importer_memory definer (.lit "f") [importer.node, definer.node] 1 rfl hloaded
    hheader).2.mpr (Or.inl hfinds)) _ hloaded

/-- The object with a SysV table only, which defines `f`. -/
def sysv_definer (node : LinkMap) (hne : 0x300#64 + node.l_addr ≠ 0) : Object where
  node := node
  file := sysv_only
  gnu := none
  sysv := some (0x300, .single _ (by decide) (by decide) (by
    rintro s ⟨⟩
    decide))
  gnu_dyn := by
    simp only [sysv_only, ObjectFile.single, dyns_encode]
    rfl
  sysv_dyn := by
    simp only [sysv_only, ObjectFile.single, dyns_encode]
    rfl
  gnu_ne := by
    rintro v t ⟨⟩
  sysv_ne := by
    rintro v t ⟨⟩
    exact hne
  members := by
    rintro v t ⟨⟩

def sysv_program : Object := sysv_definer ⟨0, .lit "a.so", none, none, none⟩ (by decide)

def sysv_library : Object := sysv_definer ⟨0x1000, .lit "a.so", none, none, none⟩ (by decide)

/-- The library's memory begins with its ELF header. -/
def sysv_library_memory : Memory 64 :=
  (Object.place (fun _ => none) sysv_library).put 0x1000 (sysv_only.content.take 64)

/-- An object without a GNU table: at 0 its `f` is not found, although the search
of the object finds it, and at 0x1000 the process dies. -/
theorem _dlsym_misses :
    (sysv_program.Loaded sysv_only_sys (Object.place (fun _ => none) sysv_program) ∧ sysv_program.Defines (.lit "f") ∧
      object_lookup sysv_only_sys (Object.place (fun _ => none) sysv_program) sysv_program.node (.lit "f") = .ok 0x40 ∧
      ¬ ∃ a, _dlsym sysv_only_sys ⟨[sysv_program.node], Object.place (fun _ => none) sysv_program⟩ 0 (.lit "f") = .ok a ∧
        sysv_program.Answers (.lit "f") a) ∧
    (sysv_library.Loaded sysv_only_sys sysv_library_memory ∧ sysv_library.Defines (.lit "f") ∧
      ¬ ∃ a, _dlsym sysv_only_sys ⟨[sysv_library.node], sysv_library_memory⟩ 0 (.lit "f") = .ok a ∧
        sysv_library.Answers (.lit "f") a) := by
  have hruns : (object_lookup sysv_only_sys (Object.place (fun _ => none) sysv_program) sysv_program.node (.lit "f") =
        .ok 0x40 ∧
      _dlsym sysv_only_sys ⟨[sysv_program.node], Object.place (fun _ => none) sysv_program⟩ 0 (.lit "f") = .ok 0 ∧
      _dlsym sysv_only_sys ⟨[sysv_library.node], sysv_library_memory⟩ 0 (.lit "f") = .fault) ∧
      sysv_program.Defines (.lit "f") ∧ sysv_library.Defines (.lit "f") := by decide +kernel
  obtain ⟨⟨hsearch, hzero, hfault⟩, hprogram, hlibrary⟩ := hruns
  refine ⟨⟨⟨sysv_only_on_disk, ?_, ?_⟩, hprogram, hsearch, ?_⟩, ⟨sysv_only_on_disk, ?_, ?_⟩, hlibrary, ?_⟩
  · rintro v t ⟨⟩
  · rintro v t ⟨⟩
    decide +kernel
  · rintro ⟨a, ha, hanswer⟩
    rw [hzero] at ha
    exact hanswer.null.mp (Outcome.ok.inj ha).symm hprogram
  · rintro v t ⟨⟩
  · rintro v t ⟨⟩
    decide +kernel
  · rintro ⟨a, ha, -⟩
    rw [hfault] at ha
    cases ha

end libdl

end ldso
