import LdSo.Relocations.Slots

open cmodel

namespace ldso.relocations

open elf elf_manipulation

/-- The name that `.shstrtab` has for a section begins with `.got.plt`. -/
def IsGotPlt (strtab : Option (List Byte)) (shdr : Shdr) : Prop :=
  (CString.lit ".got.plt").chars <+: symbol_resolution.str_at strtab shdr.sh_name

/-- The words of an object that relocation may write: those of the entries of
`.rela.plt` and `.rela.dyn`, and, when `.rela.plt` is relocated lazily, the second
and third word of the first section whose name begins with `.got.plt`. -/
inductive Target (sys : System) (node : LinkMap) (lazy : Bool) : elf_addr → Prop where
  | plt {elf buf r} (hehdr : get_elf_ehdr sys node.l_name = .ok elf)
      (hbuf : get_section sys elf node.l_name (.lit ".rela.plt") = .ok (some buf)) (hr : r ∈ relas buf) :
      Target sys node lazy (slot r node.l_addr)
  | dyn {elf buf r} (hehdr : get_elf_ehdr sys node.l_name = .ok elf)
      (hbuf : get_section sys elf node.l_name (.lit ".rela.dyn") = .ok (some buf)) (hr : r ∈ relas buf) :
      Target sys node lazy (slot r node.l_addr)
  | got_plt {elf buf strtab front shdr back w} (hlazy : lazy = true) (hehdr : get_elf_ehdr sys node.l_name = .ok elf)
      (hbuf : get_section sys elf node.l_name (.lit ".rela.plt") = .ok (some buf))
      (hheaders : get_section_header sys elf node.l_name = .ok (front ++ shdr :: back))
      (hstrtab : get_section sys elf node.l_name (.lit ".shstrtab") = .ok strtab)
      (hfirst : ∀ s ∈ front, ¬ IsGotPlt strtab s) (hshdr : IsGotPlt strtab shdr)
      (hw : w ∈ [shdr.sh_addr + node.l_addr + 8#64, shdr.sh_addr + node.l_addr + 16#64]) :
      Target sys node lazy w

variable {sys : System} {heap : Heap} {m m' : Memory 64} {next : Nat} {node : LinkMap} {map : Option Nat} {lazy : Bool}

/-- The search stops at the first header with such a name. -/
theorem find_got_plt_first {strtab : Option (List Byte)} {n : Nat} {headers : List Shdr} {shdr : Shdr}
    (h : find_got_plt strtab n headers = .ok (some shdr)) :
    ∃ front back, headers = front ++ shdr :: back ∧ (∀ s ∈ front, ¬ IsGotPlt strtab s) ∧ IsGotPlt strtab shdr := by
  induction n generalizing headers with
  | zero => cases h
  | succ n ih =>
    cases headers with
    | nil => cases h
    | cons s rest =>
      rw [find_got_plt] at h
      obtain ⟨order, horder, h⟩ := Outcome.bind_eq_ok_iff.mp h
      have hzero : order = 0 ↔ IsGotPlt strtab s := string.strncmp_zero_iff horder
      split at h
      · next hstop =>
        cases h
        exact ⟨[], rest, rfl, by simp, hzero.mp hstop⟩
      · next hgo =>
        obtain ⟨front, back, rfl, hfirst, hshdr⟩ := ih h
        refine ⟨s :: front, back, rfl, ?_, hshdr⟩
        exact List.forall_mem_cons.mpr ⟨fun hs => hgo (hzero.mpr hs), hfirst⟩

/-- Where the table that `relocation_lazy` writes to lies. -/
theorem get_got_plt_first {elf : Ehdr} {got : elf_addr} (h : get_got_plt sys elf node = .ok (some got)) :
    ∃ strtab front shdr back, get_section_header sys elf node.l_name = .ok (front ++ shdr :: back) ∧
      get_section sys elf node.l_name (.lit ".shstrtab") = .ok strtab ∧ (∀ s ∈ front, ¬ IsGotPlt strtab s) ∧
      IsGotPlt strtab shdr ∧ got = shdr.sh_addr + node.l_addr := by
  obtain ⟨headers, hheaders, h⟩ := Outcome.bind_eq_ok_iff.mp h
  obtain ⟨strtab, hstrtab, h⟩ := Outcome.bind_eq_ok_iff.mp h
  obtain ⟨found, hfound, h⟩ := Outcome.bind_eq_ok_iff.mp h
  cases found with
  | none => cases h
  | some shdr =>
    cases h
    obtain ⟨front, back, rfl, hfirst, hshdr⟩ := find_got_plt_first hfound
    exact ⟨strtab, front, shdr, back, hheaders, hstrtab, hfirst, hshdr, rfl⟩

theorem relocation_lookup_same {rela : List Rela} {nb_rela : Int} {x : elf_addr}
    (hslots : ∀ r ∈ rela, ¬ (Memory.wordRegion 64 (slot r node.l_addr)).Contains x)
    (h : relocation_lookup sys heap m rela nb_rela node map = .ok m') : m' x = m x := by
  have hhide : m'.hide (rela.map fun r => Memory.wordRegion 64 (slot r node.l_addr)) = m.hide _ :=
    relocation_lookup_hide (fun r hr => List.mem_map.mpr ⟨r, hr, rfl⟩) h
  apply Memory.hide_eq_hide_iff.mp hhide
  rintro region hregion hin
  obtain ⟨r, hr, rfl⟩ := List.mem_map.mp hregion
  exact hslots r hr hin

/-- Lazy relocation writes the words of the entries and two words of the table. -/
theorem relocation_lazy_same {rela : List Rela} {nb_rela : Int} {elf : Ehdr} {x : elf_addr}
    (hnode : heap[next]? = some node) (hehdr : get_elf_ehdr sys node.l_name = .ok elf)
    (hslots : ∀ r ∈ rela, ¬ (Memory.wordRegion 64 (slot r node.l_addr)).Contains x)
    (htable : ∀ got, get_got_plt sys elf node = .ok (some got) →
      ∀ w ∈ [got + 8#64, got + 16#64], ¬ (Memory.wordRegion 64 w).Contains x)
    (h : relocation_lazy sys heap m next rela nb_rela = .ok m') : m' x = m x := by
  unfold relocation_lazy at h
  simp only [hnode, Outcome.ofOption_some, Outcome.ok_bind, hehdr] at h
  obtain ⟨found, hgot, h⟩ := Outcome.bind_eq_ok_iff.mp h
  cases found with
  | none =>
    cases h
    rfl
  | some got =>
    obtain ⟨m₁, hone, h⟩ := Outcome.bind_eq_ok_iff.mp h
    obtain ⟨m₂, htwo, h⟩ := Outcome.bind_eq_ok_iff.mp h
    have hmem : ∀ r ∈ rela, Memory.wordRegion 64 (slot r node.l_addr) ∈
        Memory.wordRegions 64 ([got + 8#64, got + 16#64] ++ rela.map (slot · node.l_addr)) := fun r hr =>
      List.mem_map_of_mem (List.mem_append_right _ (List.mem_map.mpr ⟨r, hr, rfl⟩))
    have hhide : m'.hide (Memory.wordRegions 64 ([got + 8#64, got + 16#64] ++ rela.map (slot · node.l_addr))) =
        m.hide (Memory.wordRegions 64 ([got + 8#64, got + 16#64] ++ rela.map (slot · node.l_addr))) := by
      rw [relocation_lazy_loop_hide hmem h, hide_of_storeWord htwo (by simp [Memory.wordRegions]),
        hide_of_storeWord hone (by simp [Memory.wordRegions])]
    apply Memory.hide_eq_hide_iff.mp hhide
    intro region hregion hin
    obtain ⟨w, hw, rfl⟩ := List.mem_map.mp hregion
    obtain hw | hw := List.mem_append.mp hw
    · exact htable got hgot w hw hin
    · obtain ⟨r, hr, rfl⟩ := List.mem_map.mp hw
      exact hslots r hr hin

/-- What the pass over `.rela.dyn` leaves of a memory. -/
theorem relocate_dyn_same {elf : Ehdr} {x : elf_addr} (hehdr : get_elf_ehdr sys node.l_name = .ok elf)
    (hx : ∀ w, Target sys node lazy w → ¬ (Memory.wordRegion 64 w).Contains x)
    (h : (do
      match ← get_section sys elf node.l_name (.lit ".rela.dyn") with
      | none => return m
      | some buf =>
        let nb_rela ← get_section_size sys elf node.l_name (.lit ".rela.dyn")
        relocation_lookup sys heap m (relas buf) nb_rela node map) = .ok m') : m' x = m x := by
  obtain ⟨dyn, hdyn, h⟩ := Outcome.bind_eq_ok_iff.mp h
  cases dyn with
  | none =>
    cases h
    rfl
  | some buf =>
    obtain ⟨nb_rela, -, h⟩ := Outcome.bind_eq_ok_iff.mp h
    exact relocation_lookup_same (fun r hr => hx _ (.dyn hehdr hdyn hr)) h

/-- Relocating an object, in either mode and with entries of any type, changes no
byte outside the words it may write. -/
theorem resolve_relocations_same {x : elf_addr} (hnode : heap[next]? = some node)
    (hx : ∀ w, Target sys node lazy w → ¬ (Memory.wordRegion 64 w).Contains x)
    (h : resolve_relocations sys heap m next map lazy = .ok m') : m' x = m x := by
  unfold resolve_relocations at h
  simp only [hnode, Outcome.ofOption_some, Outcome.ok_bind] at h
  obtain ⟨elf, hehdr, h⟩ := Outcome.bind_eq_ok_iff.mp h
  obtain ⟨plt, hplt, h⟩ := Outcome.bind_eq_ok_iff.mp h
  cases plt with
  | none => exact relocate_dyn_same hehdr hx h
  | some buf =>
    obtain ⟨nb_rela, -, h⟩ := Outcome.bind_eq_ok_iff.mp h
    cases lazy with
    | true =>
      obtain ⟨m₁, hpass, h⟩ := Outcome.bind_eq_ok_iff.mp h
      rw [relocate_dyn_same hehdr hx h]
      refine relocation_lazy_same hnode hehdr (fun r hr => hx _ (.plt hehdr hplt hr)) ?_ hpass
      intro got hgot w hw
      obtain ⟨strtab, front, shdr, back, hheaders, hstrtab, hfirst, hshdr, rfl⟩ := get_got_plt_first hgot
      exact hx w (.got_plt rfl hehdr hplt hheaders hstrtab hfirst hshdr hw)
    | false =>
      obtain ⟨m₁, hpass, h⟩ := Outcome.bind_eq_ok_iff.mp h
      rw [relocate_dyn_same hehdr hx h]
      exact relocation_lookup_same (fun r hr => hx _ (.plt hehdr hplt hr)) hpass

/-- The byte in front of the only word of the merged object. -/
theorem resolve_relocations_same_merged : ∃ m',
    resolve_relocations merged_sys caller_heap caller_memory 1 (some 0) false = .ok m' ∧
      m' 0x4017 = caller_memory 0x4017 := by
  obtain ⟨m', hrun, -⟩ := Outcome.bind_eq_ok_iff.mp merged_read.2.2.2
  have hnode : caller_heap[1]? = some merged_node := rfl
  refine ⟨m', hrun, resolve_relocations_same hnode ?_ hrun⟩
  intro w hw
  cases hw with
  | plt hehdr hbuf hr =>
    obtain rfl := Outcome.ok.inj (hehdr.symm.trans merged.ehdr)
    obtain rfl := Option.some.inj (Outcome.ok.inj (hbuf.symm.trans merged.rela_plt))
    rw [(merged_slot hr).2]
    decide
  | dyn hehdr hbuf =>
    obtain rfl := Outcome.ok.inj (hehdr.symm.trans merged.ehdr)
    cases Outcome.ok.inj (hbuf.symm.trans merged.rela_dyn)
  | got_plt hlazy => cases hlazy

end ldso.relocations
