import LdSo.Relocations.Lookup
import LdSo.SymbolResolution.FirstDefinition

open cmodel

namespace ldso.relocations

open elf elf_manipulation symbol_resolution

variable {sys : System} {heap : Heap} {m : Memory 64} {elf : Ehdr} {next : LinkMap} {map : Option Nat}

/-- The word that an entry is there for: `l_addr + r_addend` for a RELATIVE entry
and the address of its symbol for any other. -/
def word (addr : Rela → elf_addr) (l_addr : elf_addr) (rela : Rela) : elf_addr :=
  if rela.type = R_X86_64_RELATIVE then rela.r_addend + l_addr else addr rela

/-- The words of an array, each with its slot. -/
def words (addr : Rela → elf_addr) (l_addr : elf_addr) (rela : List Rela) : List (elf_addr × elf_addr) :=
  rela.map fun r => (slot r l_addr, word addr l_addr r)

theorem words_fst (addr : Rela → elf_addr) (l_addr : elf_addr) (rela : List Rela) :
    (words addr l_addr rela).map Prod.fst = rela.map (slot · l_addr) := by
  simp [words, Function.comp_def]

/-- The memory in which the loop comes to entry `i`. -/
def memory_at (addr : Rela → elf_addr) (next : LinkMap) (rela : List Rela) (m : Memory 64) (i : Nat) : Memory 64 :=
  m.putWords (words addr next.l_addr (rela.take i))

/-- JUMP_SLOT, GLOB_DAT and RELATIVE entries for words that may be written and do
not meet. -/
structure Relocatable (m : Memory 64) (next : LinkMap) (rela : List Rela) : Prop where
  kinds : ∀ r ∈ rela, r.Symbolic ∨ r.type = R_X86_64_RELATIVE
  apart : Memory.Apart 64 (rela.map (slot · next.l_addr))
  writable : ∀ r ∈ rela, m.WritableRegion (Memory.wordRegion 64 (slot r next.l_addr))

theorem Relocatable.tail {r : Rela} {rest : List Rela} (h : Relocatable m next (r :: rest)) (v : elf_addr) :
    Relocatable (m.putWord (slot r next.l_addr) v) next rest where
  kinds s hs := h.kinds s (List.mem_cons_of_mem _ hs)
  apart := (List.pairwise_cons.mp h.apart).2
  writable s hs := Memory.writableRegion_putWord.mpr (h.writable s (List.mem_cons_of_mem _ hs))

theorem word_of_symbolic {addr : Rela → elf_addr} {l_addr : elf_addr} {r : Rela} (hsym : r.Symbolic) :
    word addr l_addr r = addr r := by
  apply if_neg
  obtain h | h := hsym <;> rw [h] <;> decide

/-- A RELATIVE entry whose symbol is found writes its word twice, the second time
as it should be. -/
theorem relocation_lookup_loop_relative {r : Rela} {a : elf_addr} (hrel : r.type = R_X86_64_RELATIVE)
    (hfinds : Finds sys heap m elf next map r a)
    (hwr : m.WritableRegion (Memory.wordRegion 64 (slot r next.l_addr))) (rest : List Rela) (n : Nat) :
    relocation_lookup_loop sys heap elf next map (n + 1) (r :: rest) m =
      relocation_lookup_loop sys heap elf next map n rest (m.putWord (slot r next.l_addr) (r.r_addend + next.l_addr)) := by
  obtain ⟨rela_name, hname, hlookup⟩ := hfinds
  have hcopy : r.type ≠ R_X86_64_COPY := by
    rw [hrel]
    decide
  simp only [relocation_lookup_loop, hrel, or_true, if_true, hname, hlookup, Outcome.ok_bind,
    if_pos (link_map_lookup_ne_zero hlookup), Memory.storeWord_eq_ok a hwr]
  rw [Memory.storeWord_eq_ok _ (Memory.writableRegion_putWord.mpr hwr), Outcome.ok_bind, Memory.putWord_putWord,
    if_neg (by decide)]

/-- The loop comes past a RELATIVE entry only when its symbol is found. -/
theorem finds_of_relocation_lookup_loop {r : Rela} {rest : List Rela} {n : Nat} {m' : Memory 64}
    (hrel : r.type = R_X86_64_RELATIVE)
    (h : relocation_lookup_loop sys heap elf next map (n + 1) (r :: rest) m = .ok m') :
    ∃ a, Finds sys heap m elf next map r a := by
  rw [relocation_lookup_loop, if_pos (Or.inr (Or.inr hrel))] at h
  obtain ⟨rela_name, hname, h⟩ := Outcome.bind_eq_ok_iff.mp h
  obtain ⟨a, hlookup, -⟩ := Outcome.bind_eq_ok_iff.mp h
  exact ⟨a, rela_name, hname, hlookup⟩

/-- Where its symbol is missing, a RELATIVE entry ends the process. -/
theorem relocation_lookup_loop_missing {r : Rela} {rela_name : CString} (hrel : r.type = R_X86_64_RELATIVE)
    (hname : name_from_dynsim_index sys elf next.l_name r.sym = .ok rela_name)
    (hlookup : link_map_lookup sys heap m map rela_name = .exit 1) (rest : List Rela) (n : Nat) :
    relocation_lookup_loop sys heap elf next map (n + 1) (r :: rest) m = .exit 1 := by
  rw [relocation_lookup_loop, if_pos (Or.inr (Or.inr hrel)), hname, Outcome.ok_bind, hlookup, Outcome.exit_bind]

/-- An entry whose symbol is found gets its word. -/
theorem relocation_lookup_loop_found {addr : Rela → elf_addr} {r : Rela}
    (hkind : r.Symbolic ∨ r.type = R_X86_64_RELATIVE) (hsym : r.Symbolic → Finds sys heap m elf next map r (addr r))
    (hrel : r.type = R_X86_64_RELATIVE → ∃ a, Finds sys heap m elf next map r a)
    (hwr : m.WritableRegion (Memory.wordRegion 64 (slot r next.l_addr))) (rest : List Rela) (n : Nat) :
    relocation_lookup_loop sys heap elf next map (n + 1) (r :: rest) m =
      relocation_lookup_loop sys heap elf next map n rest (m.putWord (slot r next.l_addr) (word addr next.l_addr r)) := by
  obtain h | h := hkind
  · rw [relocation_lookup_loop_symbolic h (hsym h) hwr, word_of_symbolic h]
  · obtain ⟨a, ha⟩ := hrel h
    rw [relocation_lookup_loop_relative h ha hwr, word, if_pos h]

/-- When the symbols of the JUMP_SLOT and GLOB_DAT entries are found, the loop
returns exactly when those of the RELATIVE entries are found too, and then every
word is written. -/
theorem relocation_lookup_loop_iff {addr : Rela → elf_addr} {rela : List Rela} (h : Relocatable m next rela)
    (hfinds : ∀ i r, rela[i]? = some r → r.Symbolic →
      Finds sys heap (memory_at addr next rela m i) elf next map r (addr r)) {m' : Memory 64} :
    relocation_lookup_loop sys heap elf next map rela.length rela m = .ok m' ↔
      (∀ i r, rela[i]? = some r → r.type = R_X86_64_RELATIVE →
        ∃ a, Finds sys heap (memory_at addr next rela m i) elf next map r a) ∧
      m' = m.putWords (words addr next.l_addr rela) := by
  induction rela generalizing m with
  | nil => simp [relocation_lookup_loop, words, eq_comm]
  | cons r rest ih =>
    by_cases hrel : r.type = R_X86_64_RELATIVE → ∃ a, Finds sys heap m elf next map r a
    · have hrest := @ih (m.putWord (slot r next.l_addr) (word addr next.l_addr r)) (h.tail _) fun i s hs =>
        hfinds (i + 1) s (by simpa using hs)
      have hsym : r.Symbolic → Finds sys heap m elf next map r (addr r) := hfinds 0 r rfl
      rw [List.length_cons, relocation_lookup_loop_found (h.kinds r List.mem_cons_self) hsym hrel
        (h.writable r List.mem_cons_self), hrest]
      refine and_congr_left fun _ => ⟨fun hall i s hs => ?_, fun hall i s hs => ?_⟩
      · cases i with
        | zero =>
          cases hs
          exact hrel
        | succ i => exact hall i s (by simpa using hs)
      · exact hall (i + 1) s (by simpa using hs)
    · constructor
      · intro hloop
        exact absurd (fun htype => finds_of_relocation_lookup_loop htype hloop) hrel
      · rintro ⟨hall, -⟩
        exact absurd (hall 0 r rfl) hrel

theorem relocation_lookup_iff (hehdr : get_elf_ehdr sys next.l_name = .ok elf) {addr : Rela → elf_addr}
    {rela : List Rela} (h : Relocatable m next rela)
    (hfinds : ∀ i r, rela[i]? = some r → r.Symbolic →
      Finds sys heap (memory_at addr next rela m i) elf next map r (addr r)) {m' : Memory 64} :
    relocation_lookup sys heap m rela rela.length next map = .ok m' ↔
      (∀ i r, rela[i]? = some r → r.type = R_X86_64_RELATIVE →
        ∃ a, Finds sys heap (memory_at addr next rela m i) elf next map r a) ∧
      m' = m.putWords (words addr next.l_addr rela) := by
  rw [relocation_lookup, hehdr, Outcome.ok_bind, Int.toNat_natCast, relocation_lookup_loop_iff h hfinds]

/-- Each slot then holds the word of its entry. -/
theorem loadWord_words {addr : Rela → elf_addr} {rela : List Rela} (h : Relocatable m next rela) {r : Rela}
    (hr : r ∈ rela) :
    (m.putWords (words addr next.l_addr rela)).loadWord 64 (slot r next.l_addr) = .ok (word addr next.l_addr r) := by
  have hapart := h.apart
  rw [← words_fst addr] at hapart
  have hmem : (slot r next.l_addr, word addr next.l_addr r) ∈ words addr next.l_addr rela := List.mem_map_of_mem hr
  refine Memory.loadWord_putWords_mem rfl (by decide) hapart ?_ hmem
  intro x hx
  obtain ⟨s, hs, rfl⟩ := List.mem_map.mp hx
  exact h.writable s hs

/-- Where no table is missing and none meets a slot, a symbol is found exactly
when an object provides its name. -/
theorem finds_iff_provides {addr : Rela → elf_addr} {rela : List Rela} {ps : List Nat} {objs : List Object}
    (hchain : NextChain heap map ps) (hnodes : heap.nodes ps = objs.map Object.node)
    (hloaded : ∀ o ∈ objs, o.Loaded sys (m.hide (Memory.wordRegions 64 (rela.map (slot · next.l_addr)))))
    (hready : ∀ o ∈ objs, o.GnuReady ∧ o.SysvReady) (i : Nat) (r : Rela) :
    (∃ a, Finds sys heap (memory_at addr next rela m i) elf next map r a) ↔
      ∃ rela_name, name_from_dynsim_index sys elf next.l_name r.sym = .ok rela_name ∧
        ∃ o ∈ objs, o.Provides rela_name := by
  have hhide : (memory_at addr next rela m i).hide (Memory.wordRegions 64 (rela.map (slot · next.l_addr))) =
      m.hide (Memory.wordRegions 64 (rela.map (slot · next.l_addr))) := by
    refine Memory.hide_putWords fun x hx => ?_
    obtain ⟨s, hs, rfl⟩ := List.mem_map.mp hx
    exact List.mem_map_of_mem (List.mem_map_of_mem (List.mem_of_mem_take hs))
  have hhere : ∀ o ∈ objs, o.Loaded sys (memory_at addr next rela m i) := by
    intro o ho
    apply (hloaded o ho).mono
    exact hhide ▸ Memory.hide_sub _ _
  constructor
  · rintro ⟨a, rela_name, hname, hlookup⟩
    rw [link_map_lookup_eq_list hchain, hnodes] at hlookup
    exact ⟨rela_name, hname, (lookup_list_found_iff hhere hready).mp ⟨a, hlookup⟩⟩
  · rintro ⟨rela_name, hname, hprovides⟩
    obtain ⟨a, ha⟩ := (lookup_list_found_iff hhere hready).mpr hprovides
    refine ⟨a, rela_name, hname, ?_⟩
    rw [link_map_lookup_eq_list hchain, hnodes, ha]

/-- `relocation_lookup` returns and every slot holds the word its entry is there for. -/
def Relocates (sys : System) (heap : Heap) (m : Memory 64) (rela : List Rela) (next : LinkMap) (map : Option Nat)
    (addr : Rela → elf_addr) : Prop :=
  ∃ m', relocation_lookup sys heap m rela rela.length next map = .ok m' ∧
    ∀ r ∈ rela, m'.loadWord 64 (slot r next.l_addr) = .ok (word addr next.l_addr r)

/-- An array is relocated exactly when the symbols of its RELATIVE entries, which
name none, are found as well. Where no table is missing and none meets a slot,
this is up to the symbol tables: some object has to provide the name that symbol
is read to have. -/
theorem relocation_lookup_relocates_iff (hehdr : get_elf_ehdr sys next.l_name = .ok elf) {addr : Rela → elf_addr}
    {rela : List Rela} (h : Relocatable m next rela)
    (hfinds : ∀ i r, rela[i]? = some r → r.Symbolic →
      Finds sys heap (memory_at addr next rela m i) elf next map r (addr r)) :
    (Relocates sys heap m rela next map addr ↔
      ∀ i r, rela[i]? = some r → r.type = R_X86_64_RELATIVE →
        ∃ a, Finds sys heap (memory_at addr next rela m i) elf next map r a) ∧
    ∀ (ps : List Nat) (objs : List Object), NextChain heap map ps → heap.nodes ps = objs.map Object.node →
      (∀ o ∈ objs, o.Loaded sys (m.hide (Memory.wordRegions 64 (rela.map (slot · next.l_addr))))) →
      (∀ o ∈ objs, o.GnuReady ∧ o.SysvReady) →
      (Relocates sys heap m rela next map addr ↔
        ∀ r ∈ rela, r.type = R_X86_64_RELATIVE →
          ∃ rela_name, name_from_dynsim_index sys elf next.l_name r.sym = .ok rela_name ∧
            ∃ o ∈ objs, o.Provides rela_name) := by
  have hiff : Relocates sys heap m rela next map addr ↔
      ∀ i r, rela[i]? = some r → r.type = R_X86_64_RELATIVE →
        ∃ a, Finds sys heap (memory_at addr next rela m i) elf next map r a := by
    constructor
    · rintro ⟨m', hm', -⟩
      exact ((relocation_lookup_iff hehdr h hfinds).mp hm').1
    · intro hall
      exact ⟨_, (relocation_lookup_iff hehdr h hfinds).mpr ⟨hall, rfl⟩, fun r hr => loadWord_words h hr⟩
  refine ⟨hiff, fun ps objs hchain hnodes hloaded hready => ?_⟩
  simp only [hiff, finds_iff_provides hchain hnodes hloaded hready]
  constructor
  · intro hall r hr
    obtain ⟨i, hi⟩ := List.mem_iff_getElem?.mp hr
    exact hall i r hi
  · intro hall i r hi
    exact hall r (List.mem_of_getElem? hi)

/-- The system of the two objects, with these bytes in a zero-byte allocation. -/
def stale_sys (stale : List Byte) : System := { importer_sys with stale := stale }

theorem definer_on_disk_stale (stale : List Byte) : definer.file.OnDisk (stale_sys stale) (.lit "b.so") :=
  definer_on_disk.of_sameFile ⟨by decide +kernel, rfl, rfl⟩

/-- An entry for `f` and one that adds the load address; it has no symbol. -/
def relative_rela : List Rela := [f_rela R_X86_64_JUMP_SLOT 8, ⟨0x3000, 0#32 ++ R_X86_64_RELATIVE, 0x10⟩]

theorem relative_rela_relocatable : Relocatable relocated_memory definer.node relative_rela where
  kinds := by decide
  apart := List.pairwise_pair.mpr (Region.disjoint_of_bases (by decide) (by decide))
  writable := by decide +kernel

theorem relative_rela_finds {sys : System}
    (hf : Finds sys [importer.node, definer.node] relocated_memory definer.file.elf definer.node (some 1)
      (f_rela R_X86_64_JUMP_SLOT 8) 0x2040) (i : Nat) (r : Rela) (hi : relative_rela[i]? = some r)
    (hsym : r.Symbolic) :
    Finds sys [importer.node, definer.node] (memory_at (fun _ => 0x2040) definer.node relative_rela relocated_memory i)
      definer.file.elf definer.node (some 1) r 0x2040 := by
  match i with
  | 0 =>
    cases hi
    exact hf
  | 1 =>
    cases hi
    exact absurd hsym (by decide)

/-- Where the empty name is read as `f`, the entry that needs no symbol has one. -/
theorem relocation_lookup_relative_stale :
    Relocates (stale_sys (CString.lit "f").bytes) [importer.node, definer.node] relocated_memory relative_rela definer.node
      (some 1) (fun _ => 0x2040) := by
  have hf : Finds (stale_sys (CString.lit "f").bytes) [importer.node, definer.node] relocated_memory definer.file.elf
      definer.node (some 1) (f_rela R_X86_64_JUMP_SLOT 8) 0x2040 := ⟨.lit "f", by decide +kernel, by decide +kernel⟩
  have hdisk := definer_on_disk_stale (CString.lit "f").bytes
  have hloaded : definer.Loaded (stale_sys (CString.lit "f").bytes)
      (relocated_memory.hide (Memory.wordRegions 64 (relative_rela.map (slot · definer.node.l_addr)))) := by
    refine ⟨hdisk, ?_, ?_⟩ <;> rintro v t ⟨⟩ <;> decide +kernel
  have hiff := (relocation_lookup_relocates_iff hdisk.ehdr relative_rela_relocatable (relative_rela_finds hf)).2 [1] [definer]
    ⟨rfl, _, rfl, rfl⟩ rfl (by simpa using hloaded) (by simp [Object.GnuReady, Object.SysvReady, definer, Object.single])
  refine hiff.mpr fun r hr hrel => ?_
  obtain rfl | rfl := List.mem_pair.mp hr
  · exact absurd hrel (by decide)
  · exact ⟨.lit "f", by decide +kernel, definer, by simp, by decide +kernel⟩

/-- Where the empty name is empty, no object has a symbol of that name, and the
process ends. -/
theorem relocation_lookup_relative_exits :
    Relocatable relocated_memory definer.node relative_rela ∧
    (∀ i r, relative_rela[i]? = some r → r.Symbolic →
      Finds (stale_sys [0]) [importer.node, definer.node]
        (memory_at (fun _ => 0x2040) definer.node relative_rela relocated_memory i) definer.file.elf definer.node (some 1)
        r 0x2040) ∧
    relocation_lookup (stale_sys [0]) [importer.node, definer.node] relocated_memory relative_rela 2 definer.node (some 1) =
      .exit 1 := by
  have hf : Finds (stale_sys [0]) [importer.node, definer.node] relocated_memory definer.file.elf definer.node (some 1)
      (f_rela R_X86_64_JUMP_SLOT 8) 0x2040 := ⟨.lit "f", by decide +kernel, by decide +kernel⟩
  refine ⟨relative_rela_relocatable, relative_rela_finds hf, ?_⟩
  have hehdr : get_elf_ehdr (stale_sys [0]) definer.node.l_name = .ok definer.file.elf :=
    (definer_on_disk_stale [0]).ehdr
  have hwr := relative_rela_relocatable.writable _ List.mem_cons_self
  have hmissing : link_map_lookup (stale_sys [0]) [importer.node, definer.node]
      (relocated_memory.putWord (slot (f_rela R_X86_64_JUMP_SLOT 8) definer.node.l_addr) 0x2040#64) (some 1)
      (.lit "") = .exit 1 := by decide +kernel
  rw [relocation_lookup, hehdr, Outcome.ok_bind]
  exact (relocation_lookup_loop_symbolic (by decide) hf hwr _ 1).trans
    (relocation_lookup_loop_missing rfl (by decide +kernel) hmissing [] 0)

end ldso.relocations
