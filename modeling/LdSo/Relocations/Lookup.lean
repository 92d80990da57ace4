import LdSo.Relocations
import LdSo.SymbolResolution.Lookup

open cmodel

namespace ldso

open elf

/-- The entries that bind a word to a symbol's address. -/
def elf.Rela.Symbolic (rela : Rela) : Prop := rela.type = R_X86_64_JUMP_SLOT ∨ rela.type = R_X86_64_GLOB_DAT

instance (rela : Rela) : Decidable rela.Symbolic := inferInstanceAs (Decidable (_ ∨ _))

namespace symbol_resolution

theorem link_map_scan_ne_zero {sys : System} {heap : Heap} {m : Memory 64} {rela_name : CString} {fuel : Nat}
    {map : Option Nat} {a : elf_addr} (h : link_map_scan sys heap m rela_name fuel map = .ok a) : a ≠ 0 := by
  induction fuel generalizing map with
  | zero => cases map <;> cases h
  | succ fuel ih =>
    cases map with
    | none => cases h
    | some p =>
      obtain ⟨next, -, h⟩ := Outcome.bind_eq_ok_iff.mp h
      obtain ⟨res, -, h⟩ := Outcome.bind_eq_ok_iff.mp h
      split at h
      · next hne =>
        cases h
        exact hne
      · exact ih h

/-- A lookup never returns 0. -/
theorem link_map_lookup_ne_zero {sys : System} {heap : Heap} {m : Memory 64} {rela_name : CString} {map : Option Nat}
    {a : elf_addr} (h : link_map_lookup sys heap m map rela_name = .ok a) : a ≠ 0 :=
  link_map_scan_ne_zero h

end symbol_resolution

namespace relocations

open elf_manipulation symbol_resolution

variable {sys : System} {heap : Heap} {m : Memory 64} {elf : Ehdr} {next : LinkMap} {map : Option Nat}

/-- `link_map_lookup` finds the symbol that the entry names, at `addr`. -/
def Finds (sys : System) (heap : Heap) (m : Memory 64) (elf : Ehdr) (next : LinkMap) (map : Option Nat) (rela : Rela)
    (addr : elf_addr) : Prop :=
  ∃ rela_name, name_from_dynsim_index sys elf next.l_name rela.sym = .ok rela_name ∧
    link_map_lookup sys heap m map rela_name = .ok addr

theorem Finds.mono {m' : Memory 64} {rela : Rela} {addr : elf_addr} (h : Finds sys heap m elf next map rela addr)
    (hsub : m.Sub m') : Finds sys heap m' elf next map rela addr := by
  obtain ⟨rela_name, hname, hlookup⟩ := h
  exact ⟨rela_name, hname, Outcome.eq_ok_of_le (link_map_lookup_mono hsub sys heap map rela_name) hlookup⟩

/-- The words that the symbolic entries of an array bind. -/
def slots (l_addr : elf_addr) (rela : List Rela) : List elf_addr := (rela.filter (·.Symbolic)).map (slot · l_addr)

/-- What the symbolic entries of an array write, in order. -/
def bindings (addr : Rela → elf_addr) (l_addr : elf_addr) (rela : List Rela) : List (elf_addr × elf_addr) :=
  (rela.filter (·.Symbolic)).map fun r => (slot r l_addr, addr r)

theorem bindings_fst (addr : Rela → elf_addr) (l_addr : elf_addr) (rela : List Rela) :
    (bindings addr l_addr rela).map Prod.fst = slots l_addr rela := by
  simp [bindings, slots, Function.comp_def]

theorem mem_bindings {addr : Rela → elf_addr} {l_addr : elf_addr} {rela : List Rela} {x : elf_addr × elf_addr} :
    x ∈ bindings addr l_addr rela ↔ ∃ r ∈ rela, r.Symbolic ∧ (slot r l_addr, addr r) = x := by
  simp [bindings, and_assoc]

theorem slot_mem {l_addr : elf_addr} {rela : List Rela} {r : Rela} (hr : r ∈ rela) (hsym : r.Symbolic) :
    Memory.wordRegion 64 (slot r l_addr) ∈ Memory.wordRegions 64 (slots l_addr rela) :=
  List.mem_map_of_mem (List.mem_map_of_mem (List.mem_filter.mpr ⟨hr, by simpa using hsym⟩))

/-- What `relocation_lookup` needs of an array: no RELATIVE entry, and for each
symbolic entry a writable word and a symbol that is found, whatever the words
`hidden` hold. -/
structure Resolvable (sys : System) (heap : Heap) (m : Memory 64) (elf : Ehdr) (next : LinkMap) (map : Option Nat)
    (hidden : List (Region 64)) (addr : Rela → elf_addr) (rela : List Rela) : Prop where
  not_relative : ∀ r ∈ rela, r.type ≠ R_X86_64_RELATIVE
  finds : ∀ r ∈ rela, r.Symbolic → Finds sys heap (m.hide hidden) elf next map r (addr r)
  hidden : ∀ r ∈ rela, r.Symbolic → Memory.wordRegion 64 (slot r next.l_addr) ∈ hidden
  writable : ∀ r ∈ rela, r.Symbolic → m.WritableRegion (Memory.wordRegion 64 (slot r next.l_addr))

namespace Resolvable

variable {hidden : List (Region 64)} {addr : Rela → elf_addr} {rela : List Rela}

theorem subset {rela' : List Rela} (h : Resolvable sys heap m elf next map hidden addr rela) (hsub : rela' ⊆ rela) :
    Resolvable sys heap m elf next map hidden addr rela' where
  not_relative r hr := h.not_relative r (hsub hr)
  finds r hr := h.finds r (hsub hr)
  hidden r hr := h.hidden r (hsub hr)
  writable r hr := h.writable r (hsub hr)

/-- Binding one of the words keeps the others resolvable. -/
theorem putWord {r : Rela} (h : Resolvable sys heap m elf next map hidden addr rela)
    (hr : Memory.wordRegion 64 (slot r next.l_addr) ∈ hidden) (v : elf_addr) :
    Resolvable sys heap (m.putWord (slot r next.l_addr) v) elf next map hidden addr rela where
  not_relative := h.not_relative
  finds := by
    rw [Memory.hide_putWord hr]
    exact h.finds
  hidden := h.hidden
  writable r hr hsym := Memory.writableRegion_putWord.mpr (h.writable r hr hsym)

end Resolvable

/-- A COPY entry holds the cursor for all iterations that are left. -/
theorem relocation_lookup_loop_copy {rela : Rela} (hcopy : rela.type = R_X86_64_COPY) (rest : List Rela) (n : Nat) :
    relocation_lookup_loop sys heap elf next map n (rela :: rest) m = .ok m := by
  induction n with
  | zero => rfl
  | succ n ih => simpa [relocation_lookup_loop, hcopy, R_X86_64_COPY, R_X86_64_JUMP_SLOT, R_X86_64_GLOB_DAT,
      R_X86_64_RELATIVE] using ih

/-- A symbolic entry writes its symbol's address. -/
theorem relocation_lookup_loop_symbolic {rela : Rela} {a : elf_addr} (hsym : rela.Symbolic)
    (hfinds : Finds sys heap m elf next map rela a)
    (hwr : m.WritableRegion (Memory.wordRegion 64 (slot rela next.l_addr))) (rest : List Rela) (n : Nat) :
    relocation_lookup_loop sys heap elf next map (n + 1) (rela :: rest) m =
      relocation_lookup_loop sys heap elf next map n rest (m.putWord (slot rela next.l_addr) a) := by
  obtain ⟨rela_name, hname, hlookup⟩ := hfinds
  have hrel : rela.type ≠ R_X86_64_RELATIVE := by
    obtain h | h := hsym <;> rw [h] <;> decide
  have hcopy : rela.type ≠ R_X86_64_COPY := by
    obtain h | h := hsym <;> rw [h] <;> decide
  simp only [relocation_lookup_loop,
    if_pos (show _ ∨ _ ∨ rela.type = R_X86_64_RELATIVE from or_assoc.mp (Or.inl hsym)),
    hname, hlookup, Outcome.ok_bind, if_pos (link_map_lookup_ne_zero hlookup), Memory.storeWord_eq_ok a hwr,
    if_neg hrel, if_neg hcopy]

/-- Any other entry is passed over. -/
theorem relocation_lookup_loop_other {rela : Rela} (hsym : ¬ rela.Symbolic) (hrel : rela.type ≠ R_X86_64_RELATIVE)
    (hcopy : rela.type ≠ R_X86_64_COPY) (rest : List Rela) (n : Nat) :
    relocation_lookup_loop sys heap elf next map (n + 1) (rela :: rest) m =
      relocation_lookup_loop sys heap elf next map n rest m := by
  obtain ⟨hjump, hglob⟩ := not_or.mp hsym
  simp [relocation_lookup_loop, hjump, hglob, hrel, hcopy]

/-- `relocation_lookup` binds the symbolic entries before the first COPY entry
and no others. -/
theorem relocation_lookup_loop_eq {hidden : List (Region 64)} {addr : Rela → elf_addr} {rela : List Rela}
    (h : Resolvable sys heap m elf next map hidden addr rela) :
    relocation_lookup_loop sys heap elf next map rela.length rela m =
      .ok (m.putWords (bindings addr next.l_addr (rela.takeWhile (·.type ≠ R_X86_64_COPY)))) := by
  induction rela generalizing m with
  | nil => rfl
  | cons r rest ih =>
    have hrest := h.subset (List.subset_cons_self r rest)
    by_cases hcopy : r.type = R_X86_64_COPY
    · rw [relocation_lookup_loop_copy hcopy, List.takeWhile_cons_of_neg (by simpa using hcopy)]
      rfl
    · rw [List.takeWhile_cons_of_pos (by simpa using hcopy), List.length_cons]
      by_cases hsym : r.Symbolic
      · have hmem : r ∈ r :: rest := List.mem_cons_self
        have hfinds := (h.finds r hmem hsym).mono (Memory.hide_sub m hidden)
        rw [relocation_lookup_loop_symbolic hsym hfinds (h.writable r hmem hsym),
          ih (hrest.putWord (h.hidden r hmem hsym) _)]
        simp [bindings, hsym]
      · rw [relocation_lookup_loop_other hsym (h.not_relative r (by simp)) hcopy, ih hrest]
        simp [bindings, hsym]

theorem relocation_lookup_eq (hehdr : get_elf_ehdr sys next.l_name = .ok elf) {hidden : List (Region 64)}
    {addr : Rela → elf_addr} {rela : List Rela} (h : Resolvable sys heap m elf next map hidden addr rela) :
    relocation_lookup sys heap m rela rela.length next map =
      .ok (m.putWords (bindings addr next.l_addr (rela.takeWhile (·.type ≠ R_X86_64_COPY)))) := by
  unfold relocation_lookup
  rw [hehdr, Outcome.ok_bind, Int.toNat_natCast, relocation_lookup_loop_eq h]

section Permutation

variable {addr : Rela → elf_addr} {rela : List Rela}

/-- Without a COPY entry, `relocation_lookup` binds all symbolic entries. -/
theorem relocation_lookup_of_no_copy (hehdr : get_elf_ehdr sys next.l_name = .ok elf) {hidden : List (Region 64)}
    (h : Resolvable sys heap m elf next map hidden addr rela) (hcopy : ∀ r ∈ rela, r.type ≠ R_X86_64_COPY) :
    relocation_lookup sys heap m rela rela.length next map = .ok (m.putWords (bindings addr next.l_addr rela)) := by
  rw [relocation_lookup_eq hehdr h, List.takeWhile_eq_self_iff.mpr fun r hr => by simpa using hcopy r hr]

/-- When every word already holds its symbol's address, `relocation_lookup`
changes nothing. -/
theorem relocation_lookup_of_bound (hehdr : get_elf_ehdr sys next.l_name = .ok elf) {hidden : List (Region 64)}
    (h : Resolvable sys heap m elf next map hidden addr rela)
    (hbound : ∀ r ∈ rela, r.Symbolic → m.loadWord 64 (slot r next.l_addr) = .ok (addr r)) :
    relocation_lookup sys heap m rela rela.length next map = .ok m := by
  rw [relocation_lookup_eq hehdr h]
  congr 1
  refine Memory.putWords_eq_self rfl fun x hx => ?_
  obtain ⟨r, hr, hsym, rfl⟩ := mem_bindings.mp hx
  exact hbound r ((List.takeWhile_prefix _).subset hr) hsym

/-- The word of every entry that was bound holds its address. -/
theorem loadWord_bindings (h : Memory.Apart 64 (slots next.l_addr rela))
    (hwr : ∀ r ∈ rela, r.Symbolic → m.WritableRegion (Memory.wordRegion 64 (slot r next.l_addr))) {r : Rela}
    (hr : r ∈ rela) (hsym : r.Symbolic) :
    (m.putWords (bindings addr next.l_addr rela)).loadWord 64 (slot r next.l_addr) = .ok (addr r) := by
  rw [← bindings_fst addr] at h
  refine Memory.loadWord_putWords_mem rfl (by decide) h ?_ (mem_bindings.mpr ⟨r, hr, hsym, rfl⟩)
  intro x hx
  obtain ⟨s, hs, hssym, rfl⟩ := mem_bindings.mp hx
  exact hwr s hs hssym

/-- Relocating an array in any order leaves the same memory, with every
symbolic entry applied, exactly when the array has no COPY entry or there is
nothing left to apply. -/
theorem relocation_lookup_perm_iff (hehdr : get_elf_ehdr sys next.l_name = .ok elf)
    (h : Resolvable sys heap m elf next map (Memory.wordRegions 64 (slots next.l_addr rela)) addr rela)
    (hapart : Memory.Apart 64 (slots next.l_addr rela)) :
    (∀ rela', rela.Perm rela' → ∃ m', relocation_lookup sys heap m rela rela.length next map = .ok m' ∧
      relocation_lookup sys heap m rela' rela'.length next map = .ok m' ∧
      ∀ r ∈ rela, r.Symbolic → m'.loadWord 64 (slot r next.l_addr) = .ok (addr r)) ↔
    (∀ r ∈ rela, r.type ≠ R_X86_64_COPY) ∨
      ∀ r ∈ rela, r.Symbolic → m.loadWord 64 (slot r next.l_addr) = .ok (addr r) := by
  constructor
  · intro hall
    by_cases hcopy : ∀ r ∈ rela, r.type ≠ R_X86_64_COPY
    · exact Or.inl hcopy
    · right
      push Not at hcopy
      obtain ⟨c, hc, hctype⟩ := hcopy
      -- with the COPY entry first nothing is applied
      have hperm := List.perm_cons_erase hc
      obtain ⟨m', -, hm', hbound⟩ := hall _ hperm
      rw [relocation_lookup_eq hehdr (h.subset hperm.symm.subset),
        List.takeWhile_cons_of_neg (by simpa using hctype)] at hm'
      cases hm'
      exact hbound
  · rintro (hcopy | hbound) rela' hperm
    · have hcopy' : ∀ r ∈ rela', r.type ≠ R_X86_64_COPY := fun r hr => hcopy r (hperm.symm.subset hr)
      refine ⟨_, relocation_lookup_of_no_copy hehdr h hcopy, ?_, fun r hr hsym =>
        loadWord_bindings hapart h.writable hr hsym⟩
      rw [relocation_lookup_of_no_copy hehdr (h.subset hperm.symm.subset) hcopy']
      congr 1
      refine (Memory.putWords_perm ((hperm.filter _).map _) ?_).symm
      rwa [← bindings_fst addr] at hapart
    · have hbound' : ∀ r ∈ rela', r.Symbolic → m.loadWord 64 (slot r next.l_addr) = .ok (addr r) :=
        fun r hr hsym => hbound r (hperm.symm.subset hr) hsym
      exact ⟨m, relocation_lookup_of_bound hehdr h hbound,
        relocation_lookup_of_bound hehdr (h.subset hperm.symm.subset) hbound', hbound⟩

end Permutation

/-- The two objects again, with a page for relocated words behind them. -/
def relocated_memory : Memory 64 := importer_memory.mmap ⟨0x5000, 0x1000⟩ ⟨true, true, false⟩

/-- An entry of the given type for the word at `offset + 0x5000` of the second
object; its symbol is `f`. -/
def f_rela (type : BitVec 32) (offset : elf_addr) : Rela := ⟨0x3000 + offset, 1#32 ++ type, 0⟩

theorem f_rela_resolvable (rela : List Rela) (hslots : slots definer.node.l_addr rela = [0x5008])
    (h : ∀ r ∈ rela, r = f_rela R_X86_64_COPY 0 ∨ r = f_rela R_X86_64_JUMP_SLOT 8) :
    Resolvable importer_sys [importer.node, definer.node] relocated_memory definer.file.elf definer.node (some 1)
      (Memory.wordRegions 64 (slots definer.node.l_addr rela)) (fun _ => 0x2040) rela where
  not_relative r hr := by
    obtain rfl | rfl := h r hr <;> decide
  finds r hr hsym := by
    have hlookup : link_map_lookup importer_sys [importer.node, definer.node]
        (relocated_memory.hide (Memory.wordRegions 64 [0x5008])) (some 1) (.lit "f") = .ok 0x2040 := by decide +kernel
    rw [hslots]
    refine ⟨.lit "f", ?_, hlookup⟩
    obtain rfl | rfl := h r hr <;> decide +kernel
  hidden r hr hsym := slot_mem hr hsym
  writable r hr hsym := by
    obtain rfl | rfl := h r hr <;> decide +kernel

/-- A COPY entry in front of a JUMP_SLOT entry: the slot is not bound, while in
the other order it is. -/
theorem relocation_lookup_copy_first :
    Resolvable importer_sys [importer.node, definer.node] relocated_memory definer.file.elf definer.node (some 1)
      (Memory.wordRegions 64 [0x5008]) (fun _ => 0x2040) [f_rela R_X86_64_COPY 0, f_rela R_X86_64_JUMP_SLOT 8] ∧
    Memory.Apart 64 [slot (f_rela R_X86_64_COPY 0) definer.node.l_addr,
      slot (f_rela R_X86_64_JUMP_SLOT 8) definer.node.l_addr] ∧
    ∃ m m', relocation_lookup importer_sys [importer.node, definer.node] relocated_memory
        [f_rela R_X86_64_COPY 0, f_rela R_X86_64_JUMP_SLOT 8] 2 definer.node (some 1) = .ok m ∧
      relocation_lookup importer_sys [importer.node, definer.node] relocated_memory
        [f_rela R_X86_64_JUMP_SLOT 8, f_rela R_X86_64_COPY 0] 2 definer.node (some 1) = .ok m' ∧
      m.loadWord 64 0x5008 = .ok 0 ∧ m'.loadWord 64 0x5008 = .ok 0x2040 := by
  have hehdr : get_elf_ehdr importer_sys definer.node.l_name = .ok definer.file.elf := definer_on_disk.ehdr
  have hslots : slots definer.node.l_addr [f_rela R_X86_64_COPY 0, f_rela R_X86_64_JUMP_SLOT 8] = [0x5008] := by
    decide +kernel
  have hfirst := f_rela_resolvable [f_rela R_X86_64_COPY 0, f_rela R_X86_64_JUMP_SLOT 8] hslots (by simp)
  have hlast := f_rela_resolvable [f_rela R_X86_64_JUMP_SLOT 8, f_rela R_X86_64_COPY 0] (by decide +kernel) (by simp)
  refine ⟨?_, ?_, _, _, relocation_lookup_eq hehdr hfirst, relocation_lookup_eq hehdr hlast, ?_, ?_⟩
  · rwa [hslots] at hfirst
  · exact List.pairwise_pair.mpr (Region.disjoint_of_bases (by decide) (by decide))
  · decide +kernel
  · decide +kernel

/-- The object of two buckets, with a page for relocated words behind it. -/
def two_bucket_node : LinkMap := ⟨0x1000, .lit "a.so", none, none, none⟩

def two_bucket_sys : System := .of_files [(.lit "a.so", two_bucket_file.content)]

def two_bucket_memory : Memory 64 :=
  ((Memory.mmap (fun _ => none) ⟨0x1000, 0x1000⟩ ⟨true, false, true⟩).put 0x1200 two_bucket_table.bytes).mmap
    ⟨0x5000, 0x1000⟩ ⟨true, true, false⟩

/-- `ab` through the PLT, a word of a type that is passed over, and `ac` through the GOT. -/
def two_bucket_rela : List Rela :=
  [⟨0x4008, 3#32 ++ R_X86_64_JUMP_SLOT, 0⟩, ⟨0x4020, 3#32 ++ 1#32, 0⟩, ⟨0x4010, 4#32 ++ R_X86_64_GLOB_DAT, 0⟩]

def two_bucket_addr (rela : Rela) : elf_addr := if rela.sym = 3 then 0x1050 else 0x1060

/-- The array and its reverse leave the same memory, with both words bound. -/
theorem relocation_lookup_reverse :
    ∃ m, relocation_lookup two_bucket_sys [two_bucket_node] two_bucket_memory two_bucket_rela 3 two_bucket_node (some 0) =
        .ok m ∧
      relocation_lookup two_bucket_sys [two_bucket_node] two_bucket_memory two_bucket_rela.reverse 3 two_bucket_node
        (some 0) = .ok m ∧ m.loadWord 64 0x5008 = .ok 0x1050 ∧ m.loadWord 64 0x5010 = .ok 0x1060 := by
  have hehdr : get_elf_ehdr two_bucket_sys two_bucket_node.l_name = .ok two_bucket_file.elf := by decide +kernel
  have hslots : slots two_bucket_node.l_addr two_bucket_rela = [0x5008, 0x5010] := by decide +kernel
  have hresolvable : Resolvable two_bucket_sys [two_bucket_node] two_bucket_memory two_bucket_file.elf two_bucket_node
      (some 0) (Memory.wordRegions 64 (slots two_bucket_node.l_addr two_bucket_rela)) two_bucket_addr two_bucket_rela := by
    refine ⟨by decide, ?_, fun r hr hsym => slot_mem hr hsym, by decide +kernel⟩
    rw [hslots]
    intro r hr hsym
    obtain rfl | rfl | rfl : r = ⟨0x4008, 3#32 ++ R_X86_64_JUMP_SLOT, 0⟩ ∨ r = ⟨0x4020, 3#32 ++ 1#32, 0⟩ ∨
        r = ⟨0x4010, 4#32 ++ R_X86_64_GLOB_DAT, 0⟩ := by simpa [two_bucket_rela] using hr
    · exact ⟨.lit "ab", by decide +kernel, by decide +kernel⟩
    · exact absurd hsym (by decide)
    · exact ⟨.lit "ac", by decide +kernel, by decide +kernel⟩
  have hapart : Memory.Apart 64 (slots two_bucket_node.l_addr two_bucket_rela) := by
    rw [hslots]
    exact List.pairwise_pair.mpr (Region.disjoint_of_bases (by decide) (by decide))
  obtain ⟨m, hm, hreverse, hbound⟩ :=
    (relocation_lookup_perm_iff hehdr hresolvable hapart).mpr (Or.inl (by decide)) two_bucket_rela.reverse
      (List.reverse_perm _).symm
  exact ⟨m, hm, hreverse, hbound ⟨0x4008, 3#32 ++ R_X86_64_JUMP_SLOT, 0⟩ (by simp [two_bucket_rela]) (by decide),
    hbound ⟨0x4010, 4#32 ++ R_X86_64_GLOB_DAT, 0⟩ (by simp [two_bucket_rela]) (by decide)⟩

end relocations

end ldso
