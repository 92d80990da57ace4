import LdSo.Relocations.Lookup

open cmodel

namespace ldso.relocations

open elf elf_manipulation symbol_resolution

/-- The address of `got_plt` moves with the object. -/
theorem get_got_plt_at {sys : System} {elf : Ehdr} {node : LinkMap} {got_plt : Option elf_addr}
    (h : get_got_plt sys elf ⟨0, node.l_name, none, none, none⟩ = .ok got_plt) :
    get_got_plt sys elf node = .ok (got_plt.map (· + node.l_addr)) := by
  unfold get_got_plt at h ⊢
  obtain ⟨shdr, hshdr, h⟩ := Outcome.bind_eq_ok_iff.mp h
  obtain ⟨strtab, hstrtab, h⟩ := Outcome.bind_eq_ok_iff.mp h
  obtain ⟨found, hfound, h⟩ := Outcome.bind_eq_ok_iff.mp h
  simp only [hshdr, hstrtab, hfound, Outcome.ok_bind]
  cases found with
  | none =>
    cases h
    rfl
  | some shdr =>
    cases h
    simp

/-- Where its words may be written, lazy relocation writes them and no others. -/
theorem relocation_lazy_loop_of_writable {l_addr : elf_addr} {rela : List Rela} {m : Memory 64}
    (hwr : ∀ r ∈ rela, m.WritableRegion (Memory.wordRegion 64 (slot r l_addr))) :
    ∃ ws : List (elf_addr × elf_addr), ws.map Prod.fst = rela.map (slot · l_addr) ∧
      relocation_lazy_loop l_addr rela.length rela m = .ok (m.putWords ws) := by
  induction rela generalizing m with
  | nil => exact ⟨[], rfl, rfl⟩
  | cons r rest ih =>
    have hr := hwr r (by simp)
    obtain ⟨word, hword⟩ := Memory.loadWord_of_writable hr
    obtain ⟨ws, hws, hloop⟩ := ih (m := m.putWord (slot r l_addr) (word + l_addr)) fun s hs =>
      Memory.writableRegion_putWord.mpr (hwr s (by simp [hs]))
    refine ⟨(slot r l_addr, word + l_addr) :: ws, by simp [hws], ?_⟩
    rw [List.length_cons, relocation_lazy_loop, hword, Outcome.ok_bind, Memory.storeWord_eq_ok _ hr, Outcome.ok_bind,
      hloop]
    rfl

section Lookup

variable {sys : System} {heap : Heap} {m : Memory 64} {elf : Ehdr} {next : LinkMap} {map : Option Nat}

/-- A symbolic entry that is passed was found, and its word was written. -/
theorem relocation_lookup_loop_binds {rela : Rela} {rest : List Rela} {n : Nat} {m' : Memory 64} (hsym : rela.Symbolic)
    (h : relocation_lookup_loop sys heap elf next map (n + 1) (rela :: rest) m = .ok m') :
    ∃ a, Finds sys heap m elf next map rela a ∧ m.WritableRegion (Memory.wordRegion 64 (slot rela next.l_addr)) ∧
      relocation_lookup_loop sys heap elf next map n rest (m.putWord (slot rela next.l_addr) a) = .ok m' := by
  have hloop := h
  rw [relocation_lookup_loop,
    if_pos (show _ ∨ _ ∨ rela.type = R_X86_64_RELATIVE from or_assoc.mp (Or.inl hsym))] at hloop
  obtain ⟨rela_name, hname, hloop⟩ := Outcome.bind_eq_ok_iff.mp hloop
  obtain ⟨a, hlookup, hloop⟩ := Outcome.bind_eq_ok_iff.mp hloop
  rw [if_pos (link_map_lookup_ne_zero hlookup)] at hloop
  obtain ⟨m₁, hstore, -⟩ := Outcome.bind_eq_ok_iff.mp hloop
  have hfinds : Finds sys heap m elf next map rela a := ⟨rela_name, hname, hlookup⟩
  have hwr := (Memory.storeWord_eq_ok_iff.mp hstore).1
  exact ⟨a, hfinds, hwr, by rw [← relocation_lookup_loop_symbolic hsym hfinds hwr, h]⟩

/-- When `relocation_lookup` returns, it wrote the words of the symbolic entries,
each with the address found for it in a memory where only such words differ. -/
theorem relocation_lookup_loop_words {hidden : List (Region 64)} {rela : List Rela} {m' : Memory 64}
    (htype : ∀ r ∈ rela, r.type ≠ R_X86_64_COPY ∧ r.type ≠ R_X86_64_RELATIVE)
    (hhidden : ∀ r ∈ rela, r.Symbolic → Memory.wordRegion 64 (slot r next.l_addr) ∈ hidden)
    (h : relocation_lookup_loop sys heap elf next map rela.length rela m = .ok m') :
    ∃ ws : List (elf_addr × elf_addr), m' = m.putWords ws ∧ ws.map Prod.fst = slots next.l_addr rela ∧
      ∀ r ∈ rela, r.Symbolic → ∃ (m₁ : Memory 64) (a : elf_addr), m₁.hide hidden = m.hide hidden ∧
        Finds sys heap m₁ elf next map r a ∧ (slot r next.l_addr, a) ∈ ws := by
  induction rela generalizing m with
  | nil =>
    cases h
    exact ⟨[], rfl, rfl, by simp⟩
  | cons r rest ih =>
    have htail : ∀ s ∈ rest, s.type ≠ R_X86_64_COPY ∧ s.type ≠ R_X86_64_RELATIVE := fun s hs => htype s (by simp [hs])
    have hhiddentail : ∀ s ∈ rest, s.Symbolic → Memory.wordRegion 64 (slot s next.l_addr) ∈ hidden :=
      fun s hs => hhidden s (by simp [hs])
    rw [List.length_cons] at h
    by_cases hsym : r.Symbolic
    · obtain ⟨a, hfinds, -, h⟩ := relocation_lookup_loop_binds hsym h
      obtain ⟨ws, rfl, hfst, hws⟩ := ih htail hhiddentail h
      refine ⟨(slot r next.l_addr, a) :: ws, rfl, by simp [slots, hsym, hfst], ?_⟩
      intro s hs hssym
      obtain rfl | hs := List.mem_cons.mp hs
      · exact ⟨m, a, rfl, hfinds, List.mem_cons_self⟩
      · obtain ⟨m₁, b, hsame, hfound, hmem⟩ := hws s hs hssym
        exact ⟨m₁, b, hsame.trans (Memory.hide_putWord (hhidden r (by simp) hsym)), hfound, List.mem_cons_of_mem _ hmem⟩
    · obtain ⟨hcopy, hrel⟩ := htype r (by simp)
      rw [relocation_lookup_loop_other hsym hrel hcopy] at h
      obtain ⟨ws, rfl, hfst, hws⟩ := ih htail hhiddentail h
      refine ⟨ws, rfl, by simp [slots, hsym, hfst], ?_⟩
      intro s hs hssym
      obtain rfl | hs := List.mem_cons.mp hs
      · exact absurd hssym hsym
      · exact hws s hs hssym

end Lookup

/-- What relocation reads of a library's file: `.rela.plt` and `.rela.dyn`, and
the `sh_addr` of `.got.plt`, where there are such sections. -/
structure RelaFile (sys : System) (name : CString) where
  elf : Ehdr
  plt : Option (List Byte)
  dyn : Option (List Byte)
  got_plt : Option elf_addr
  ehdr : get_elf_ehdr sys name = .ok elf
  rela_plt : get_section sys elf name (.lit ".rela.plt") = .ok plt
  plt_count : get_section_size sys elf name (.lit ".rela.plt") = .ok ((relas (plt.getD [])).length : Int)
  rela_dyn : get_section sys elf name (.lit ".rela.dyn") = .ok dyn
  dyn_count : get_section_size sys elf name (.lit ".rela.dyn") = .ok ((relas (dyn.getD [])).length : Int)
  got : get_got_plt sys elf ⟨0, name, none, none, none⟩ = .ok got_plt

namespace RelaFile

variable {sys : System} {name : CString}

/-- All of it is given by the file. -/
theorem unique (lib lib' : RelaFile sys name) : lib = lib' := by
  obtain ⟨elf, plt, dyn, got_plt, hehdr, hplt, -, hdyn, -, hgot⟩ := lib
  obtain ⟨elf', plt', dyn', got_plt', hehdr', hplt', -, hdyn', -, hgot'⟩ := lib'
  obtain rfl : elf = elf' := Outcome.ok.inj (hehdr.symm.trans hehdr')
  obtain rfl : plt = plt' := Outcome.ok.inj (hplt.symm.trans hplt')
  obtain rfl : dyn = dyn' := Outcome.ok.inj (hdyn.symm.trans hdyn')
  obtain rfl : got_plt = got_plt' := Outcome.ok.inj (hgot.symm.trans hgot')
  rfl

def plt_entries (lib : RelaFile sys name) : List Rela := relas (lib.plt.getD [])

def dyn_entries (lib : RelaFile sys name) : List Rela := relas (lib.dyn.getD [])

/-- The words that lazy relocation may write in the library at `l_addr`. -/
def lazy_words (lib : RelaFile sys name) (l_addr : elf_addr) : List elf_addr :=
  (lib.got_plt.elim [] fun got_plt => [got_plt + l_addr + 8#64, got_plt + l_addr + 16#64]) ++
    lib.plt_entries.map (slot · l_addr)

/-- The words that relocation may write. -/
def words (lib : RelaFile sys name) (l_addr : elf_addr) : List elf_addr :=
  lib.lazy_words l_addr ++ slots l_addr lib.dyn_entries

variable {heap : Heap} {m : Memory 64} {next : Nat} {node : LinkMap}

theorem relocation_lazy_of_writable (lib : RelaFile sys node.l_name) (hnode : heap[next]? = some node)
    (hwr : ∀ w ∈ lib.lazy_words node.l_addr, m.WritableRegion (Memory.wordRegion 64 w)) :
    ∃ ws : List (elf_addr × elf_addr), (∀ x ∈ ws, x.1 ∈ lib.lazy_words node.l_addr) ∧
      relocation_lazy sys heap m next lib.plt_entries lib.plt_entries.length = .ok (m.putWords ws) := by
  unfold relocation_lazy
  rw [hnode, Outcome.ofOption_some, Outcome.ok_bind, lib.ehdr, Outcome.ok_bind, get_got_plt_at lib.got,
    Outcome.ok_bind]
  unfold lazy_words at hwr ⊢
  cases hgot : lib.got_plt with
  | none => exact ⟨[], by simp, rfl⟩
  | some got_plt =>
    rw [hgot] at hwr
    have hone := hwr (got_plt + node.l_addr + 8#64) (by simp)
    have htwo := hwr (got_plt + node.l_addr + 16#64) (by simp)
    obtain ⟨ws, hws, hloop⟩ := @relocation_lazy_loop_of_writable node.l_addr lib.plt_entries
      ((m.putWord (got_plt + node.l_addr + 8#64) (sys.node next)).putWord (got_plt + node.l_addr + 16#64) sys.reloc)
      fun r hr => by
        rw [Memory.writableRegion_putWord, Memory.writableRegion_putWord]
        exact hwr _ (List.mem_append_right _ (List.mem_map_of_mem hr))
    refine ⟨(got_plt + node.l_addr + 8#64, sys.node next) :: (got_plt + node.l_addr + 16#64, sys.reloc) :: ws, ?_, ?_⟩
    · intro x hx
      obtain rfl | hx := List.mem_cons.mp hx
      · simp
      · obtain rfl | hx := List.mem_cons.mp hx
        · simp
        · exact List.mem_append_right _ (hws ▸ List.mem_map_of_mem hx)
    · simp only [Option.map_some, Memory.storeWord_eq_ok _ hone, Outcome.ok_bind, Int.toNat_natCast,
        Memory.storeWord_eq_ok sys.reloc (Memory.writableRegion_putWord.mpr htwo), hloop]
      rfl

/-- Relocation of the library in these terms. -/
theorem resolve_relocations_eq (lib : RelaFile sys node.l_name) (hnode : heap[next]? = some node) (map : Option Nat)
    (lazy : Bool) :
    resolve_relocations sys heap m next map lazy = (do
      let m ← lib.plt.elim (.ok m) fun _ =>
        if lazy then relocation_lazy sys heap m next lib.plt_entries lib.plt_entries.length
        else relocation_lookup sys heap m lib.plt_entries lib.plt_entries.length node map
      relocation_lookup sys heap m lib.dyn_entries lib.dyn_entries.length node map) := by
  have hempty : ∀ m : Memory 64, relocation_lookup sys heap m [] 0 node map = .ok m := by
    intro m
    unfold relocation_lookup
    rw [lib.ehdr]
    rfl
  have hdyn : ∀ m : Memory 64, (lib.dyn.elim (.ok m) fun buf => do
      let nb_rela ← get_section_size sys lib.elf node.l_name (.lit ".rela.dyn")
      relocation_lookup sys heap m (relas buf) nb_rela node map) =
      relocation_lookup sys heap m lib.dyn_entries lib.dyn_entries.length node map := by
    intro m
    unfold dyn_entries
    rw [lib.dyn_count]
    cases lib.dyn with
    | none => exact (hempty m).symm
    | some buf => rfl
  have hplt : (lib.plt.elim (.ok m) fun buf => do
      let nb_rela ← get_section_size sys lib.elf node.l_name (.lit ".rela.plt")
      if lazy then relocation_lazy sys heap m next (relas buf) nb_rela
      else relocation_lookup sys heap m (relas buf) nb_rela node map) =
      lib.plt.elim (.ok m) fun _ =>
        if lazy then relocation_lazy sys heap m next lib.plt_entries lib.plt_entries.length
        else relocation_lookup sys heap m lib.plt_entries lib.plt_entries.length node map := by
    unfold plt_entries
    rw [lib.plt_count]
    cases lib.plt with
    | none => rfl
    | some buf => rfl
  simp only [← hdyn, ← hplt]
  unfold resolve_relocations
  rw [hnode, Outcome.ofOption_some, Outcome.ok_bind, lib.ehdr, Outcome.ok_bind, lib.rela_plt, Outcome.ok_bind,
    lib.rela_dyn]
  cases lib.plt with
  | none => cases lib.dyn <;> rfl
  | some buf =>
    simp only [Option.elim_some, bind_assoc, Outcome.ok_bind]
    cases lazy <;> cases lib.dyn <;> rfl

theorem resolve_relocations_lazy_eq (lib : RelaFile sys node.l_name) (hnode : heap[next]? = some node)
    (map : Option Nat) :
    resolve_relocations sys heap m next map true = (do
      let m ← lib.plt.elim (.ok m) fun _ => relocation_lazy sys heap m next lib.plt_entries lib.plt_entries.length
      relocation_lookup sys heap m lib.dyn_entries lib.dyn_entries.length node map) := by
  simpa using lib.resolve_relocations_eq hnode map true

/-- The first pass writes the words of lazy relocation, if any. -/
theorem lazy_pass_of_writable (lib : RelaFile sys node.l_name) (hnode : heap[next]? = some node)
    (hwr : ∀ w ∈ lib.words node.l_addr, m.WritableRegion (Memory.wordRegion 64 w)) :
    ∃ ws : List (elf_addr × elf_addr), (m.putWords ws).hide (Memory.wordRegions 64 (lib.words node.l_addr)) =
        m.hide (Memory.wordRegions 64 (lib.words node.l_addr)) ∧
      (lib.plt.elim (.ok m) fun _ => relocation_lazy sys heap m next lib.plt_entries lib.plt_entries.length) =
        .ok (m.putWords ws) := by
  cases lib.plt with
  | none => exact ⟨[], rfl, rfl⟩
  | some buf =>
    obtain ⟨ws, hws, hlazy⟩ := lib.relocation_lazy_of_writable hnode fun w hw => hwr w (List.mem_append_left _ hw)
    exact ⟨ws, Memory.hide_putWords fun x hx => List.mem_map_of_mem (List.mem_append_left _ (hws x hx)), hlazy⟩

theorem slot_mem_words (lib : RelaFile sys name) {l_addr : elf_addr} {r : Rela} (hr : r ∈ lib.dyn_entries)
    (hsym : r.Symbolic) : slot r l_addr ∈ lib.words l_addr :=
  List.mem_append_right _ (List.mem_map_of_mem (List.mem_filter.mpr ⟨hr, by simpa using hsym⟩))

variable {map : Option Nat}

/-- Relocating a library lazily binds every symbolic entry of its `.rela.dyn`,
when each of their symbols is found whatever the relocated words hold. -/
theorem resolve_relocations_of_finds (lib : RelaFile sys node.l_name) {addr : Rela → elf_addr}
    (hnode : heap[next]? = some node)
    (hwr : ∀ w ∈ lib.words node.l_addr, m.WritableRegion (Memory.wordRegion 64 w))
    (hapart : Memory.Apart 64 (slots node.l_addr lib.dyn_entries))
    (htype : ∀ r ∈ lib.dyn_entries, r.type ≠ R_X86_64_COPY ∧ r.type ≠ R_X86_64_RELATIVE)
    (hfinds : ∀ r ∈ lib.dyn_entries, r.Symbolic →
      Finds sys heap (m.hide (Memory.wordRegions 64 (lib.words node.l_addr))) lib.elf node map r (addr r)) :
    ∃ m', resolve_relocations sys heap m next map true = .ok m' ∧
      ∀ r ∈ lib.dyn_entries, r.Symbolic → m'.loadWord 64 (slot r node.l_addr) = .ok (addr r) := by
  obtain ⟨ws, hhide, hlazy⟩ := lib.lazy_pass_of_writable hnode hwr
  have hresolvable : Resolvable sys heap (m.putWords ws) lib.elf node map
      (Memory.wordRegions 64 (lib.words node.l_addr)) addr lib.dyn_entries :=
    { not_relative := fun r hr => (htype r hr).2
      finds := fun r hr hsym => by
        rw [hhide]
        exact hfinds r hr hsym
      hidden := fun r hr hsym => List.mem_map_of_mem (lib.slot_mem_words hr hsym)
      writable := fun r hr hsym => Memory.writableRegion_putWords.mpr (hwr _ (lib.slot_mem_words hr hsym)) }
  refine ⟨(m.putWords ws).putWords (bindings addr node.l_addr lib.dyn_entries), ?_,
    fun r hr hsym => loadWord_bindings hapart hresolvable.writable hr hsym⟩
  rw [lib.resolve_relocations_lazy_eq hnode, hlazy, Outcome.ok_bind]
  exact relocation_lookup_of_no_copy lib.ehdr hresolvable fun r hr => (htype r hr).1

/-- When the relocation returns, each of those symbols was found, in a memory
where only relocated words differ, and its word holds the address. -/
theorem finds_of_resolve_relocations (lib : RelaFile sys node.l_name) {m' : Memory 64}
    (hnode : heap[next]? = some node)
    (hwr : ∀ w ∈ lib.words node.l_addr, m.WritableRegion (Memory.wordRegion 64 w))
    (hapart : Memory.Apart 64 (slots node.l_addr lib.dyn_entries))
    (htype : ∀ r ∈ lib.dyn_entries, r.type ≠ R_X86_64_COPY ∧ r.type ≠ R_X86_64_RELATIVE)
    (h : resolve_relocations sys heap m next map true = .ok m') :
    ∀ r ∈ lib.dyn_entries, r.Symbolic → ∃ (m₁ : Memory 64) (a : elf_addr),
      m₁.hide (Memory.wordRegions 64 (lib.words node.l_addr)) = m.hide (Memory.wordRegions 64 (lib.words node.l_addr)) ∧
      Finds sys heap m₁ lib.elf node map r a ∧ m'.loadWord 64 (slot r node.l_addr) = .ok a := by
  obtain ⟨ws, hhide, hlazy⟩ := lib.lazy_pass_of_writable hnode hwr
  rw [lib.resolve_relocations_lazy_eq hnode, hlazy, Outcome.ok_bind] at h
  unfold relocation_lookup at h
  rw [lib.ehdr, Outcome.ok_bind, Int.toNat_natCast] at h
  obtain ⟨xs, rfl, hfst, hxs⟩ := relocation_lookup_loop_words htype
    (fun r hr hsym => List.mem_map_of_mem (lib.slot_mem_words hr hsym)) h
  intro r hr hsym
  obtain ⟨m₁, a, hsame, hfinds, hmem⟩ := hxs r hr hsym
  rw [← hfst] at hapart
  refine ⟨m₁, a, hsame.trans hhide, hfinds, Memory.loadWord_putWords_mem rfl (by decide) hapart ?_ hmem⟩
  intro x hx
  have hslot : x.1 ∈ slots node.l_addr lib.dyn_entries := hfst ▸ List.mem_map_of_mem hx
  exact Memory.writableRegion_putWords.mpr (hwr _ (List.mem_append_right _ hslot))

end RelaFile

end ldso.relocations
