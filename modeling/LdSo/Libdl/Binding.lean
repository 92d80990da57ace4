import LdSo.Libdl.Session
import LdSo.Relocations.Frame
import LdSo.Relocations.Lazy
import LdSo.Relocations.Library
import LdSo.Relocations.Writes

open cmodel

namespace ldso.libdl

open elf elf_manipulation relocations symbol_resolution

variable {sys : System}

namespace Library

variable {name : CString}

/-- Loaded at `l_addr`, the words that the PLT jumps through avoid each other, the
`got_plt` words, if there are any, and the words of `.rela.dyn`. -/
structure Apart (lib : RelaFile sys name) (l_addr : elf_addr) : Prop where
  slots : Memory.Apart 64 (lib.plt_entries.map (slot · l_addr))
  got : ∀ g ∈ lib.got_plt, ∀ w ∈ [g + l_addr + 8#64, g + l_addr + 16#64], ∀ r ∈ lib.plt_entries,
    (Memory.wordRegion 64 w).Disjoint (Memory.wordRegion 64 (slot r l_addr))
  dyn : ∀ d ∈ lib.dyn_entries, ∀ r ∈ lib.plt_entries,
    (Memory.wordRegion 64 (slot d l_addr)).Disjoint (Memory.wordRegion 64 (slot r l_addr))

/-- Lazy relocation of a word that the PLT jumps through: nothing happens to it in a
library without a `.got.plt`. -/
def relocated (lib : RelaFile sys name) (l_addr word : elf_addr) : elf_addr :=
  if lib.got_plt.isSome then word + l_addr else word

/-- All the words that relocation may write, whatever the types of the entries. -/
def words (lib : RelaFile sys name) (l_addr : elf_addr) : List elf_addr :=
  lib.lazy_words l_addr ++ lib.dyn_entries.map (slot · l_addr)

variable {heap : Heap} {m m' : Memory 64} {next : Nat} {map : Option Nat} {node : LinkMap}

/-- The first pass leaves the words of the PLT relocated. -/
theorem relocation_lazy_content (lib : RelaFile sys node.l_name) (hnode : heap[next]? = some node)
    (hapart : Apart lib node.l_addr)
    (h : relocation_lazy sys heap m next lib.plt_entries lib.plt_entries.length = .ok m') {r : Rela}
    (hr : r ∈ lib.plt_entries) {c : elf_addr} (hc : m.loadWord 64 (slot r node.l_addr) = .ok c) :
    m'.loadWord 64 (slot r node.l_addr) = .ok (relocated lib node.l_addr c) := by
  have hsearch := get_got_plt_at lib.got
  unfold relocated
  cases hgot : lib.got_plt with
  | none =>
    rw [hgot, Option.map_none] at hsearch
    simp only [relocation_lazy, hnode, Outcome.ofOption_some, Outcome.ok_bind, lib.ehdr, hsearch] at h
    cases h
    exact hc
  | some g =>
    rw [hgot, Option.map_some] at hsearch
    obtain ⟨c', hc', hword⟩ :=
      (relocation_lazy_installs hnode lib.ehdr hsearch hapart.slots (hapart.got g hgot) h).2 r hr
    obtain rfl : c = c' := Outcome.ok.inj (hc.symm.trans hc')
    exact hword

/-- The two passes of a library with entries. -/
theorem first_pass (lib : RelaFile sys node.l_name) (hnode : heap[next]? = some node) {r : Rela}
    (hr : r ∈ lib.plt_entries) (h : resolve_relocations sys heap m next map true = .ok m') :
    ∃ m₁, relocation_lazy sys heap m next lib.plt_entries lib.plt_entries.length = .ok m₁ ∧
      relocation_lookup sys heap m₁ lib.dyn_entries lib.dyn_entries.length node map = .ok m' := by
  rw [lib.resolve_relocations_lazy_eq hnode] at h
  obtain ⟨m₁, hplt, hdyn⟩ := Outcome.bind_eq_ok_iff.mp h
  have hsome : lib.plt ≠ none := by
    intro hnone
    rw [RelaFile.plt_entries, hnone] at hr
    cases hr
  obtain ⟨buf, hbuf⟩ := Option.ne_none_iff_exists'.mp hsome
  rw [hbuf, Option.elim_some] at hplt
  exact ⟨m₁, hplt, hdyn⟩

/-- Relocating a library lazily leaves the words that its PLT jumps through
relocated, whatever else it writes. -/
theorem resolve_relocations_content (lib : RelaFile sys node.l_name) (hnode : heap[next]? = some node)
    (hapart : Apart lib node.l_addr) (h : resolve_relocations sys heap m next map true = .ok m') {r : Rela}
    (hr : r ∈ lib.plt_entries) {c : elf_addr} (hc : m.loadWord 64 (slot r node.l_addr) = .ok c) :
    m'.loadWord 64 (slot r node.l_addr) = .ok (relocated lib node.l_addr c) := by
  obtain ⟨m₁, hplt, hdyn⟩ := first_pass lib hnode hr h
  rw [relocation_lookup_frame (fun d hd => hapart.dyn d hd r hr) hdyn]
  exact relocation_lazy_content lib hnode hapart hplt hr hc

/-- With a `.got.plt`, these words were read. -/
theorem loadWord_of_resolve (lib : RelaFile sys node.l_name) (hnode : heap[next]? = some node) {g : elf_addr}
    (hgot : lib.got_plt = some g) (hapart : Apart lib node.l_addr)
    (h : resolve_relocations sys heap m next map true = .ok m') {r : Rela} (hr : r ∈ lib.plt_entries) :
    ∃ c, m.loadWord 64 (slot r node.l_addr) = .ok c := by
  have hsearch := get_got_plt_at lib.got
  rw [hgot, Option.map_some] at hsearch
  obtain ⟨m₁, hplt⟩ := first_pass lib hnode hr h
  obtain ⟨c, hc, -⟩ := (relocation_lazy_installs hnode lib.ehdr hsearch hapart.slots (hapart.got g hgot) hplt.1).2 r hr
  exact ⟨c, hc⟩

/-- Relocating a library lazily leaves everything but its words as it is. -/
theorem resolve_relocations_hide (lib : RelaFile sys node.l_name) (hnode : heap[next]? = some node)
    (h : resolve_relocations sys heap m next map true = .ok m') :
    m'.hide (Memory.wordRegions 64 (words lib node.l_addr)) = m.hide (Memory.wordRegions 64 (words lib node.l_addr)) := by
  have hplt : ∀ w ∈ lib.lazy_words node.l_addr, Memory.wordRegion 64 w ∈ Memory.wordRegions 64 (words lib node.l_addr) :=
    fun w hw => List.mem_map_of_mem (List.mem_append_left _ hw)
  have hdyn : ∀ d ∈ lib.dyn_entries,
      Memory.wordRegion 64 (slot d node.l_addr) ∈ Memory.wordRegions 64 (words lib node.l_addr) :=
    fun d hd => List.mem_map_of_mem (List.mem_append_right _ (List.mem_map_of_mem hd))
  rw [lib.resolve_relocations_lazy_eq hnode] at h
  obtain ⟨m₁, hpass, h⟩ := Outcome.bind_eq_ok_iff.mp h
  rw [relocation_lookup_hide hdyn h]
  cases hbuf : lib.plt with
  | none =>
    rw [hbuf] at hpass
    cases hpass
    rfl
  | some buf =>
    rw [hbuf, Option.elim_some] at hpass
    apply Memory.hide_eq_hide_iff.mpr
    intro x hx
    refine relocation_lazy_same hnode lib.ehdr (fun r hr => ?_) (fun got hgot w hw => ?_) hpass
    · exact hx _ (hplt _ (List.mem_append_right _ (List.mem_map_of_mem hr)))
    · rw [get_got_plt_at lib.got, Outcome.ok.injEq] at hgot
      obtain ⟨g, hg, rfl⟩ := Option.map_eq_some_iff.mp hgot
      refine hx _ (hplt w (List.mem_append_left _ ?_))
      rw [hg]
      exact hw

end Library

/-- The word of an entry holds the address that the lookup from `map` finds for
its symbol. -/
def Bound (sys : System) (s : State) (elf : Ehdr) (node : LinkMap) (map : Option Nat) (r : Rela) : Prop :=
  ∃ addr, Finds sys s.heap s.mem elf node map r addr ∧ s.mem.loadWord 64 (slot r node.l_addr) = .ok addr

/-- What the flags ask for: every JUMP_SLOT word bound, unless RTLD_LAZY is
given; then every one relocated only. -/
def BoundAsAsked (sys : System) (s : State) (elf : Ehdr) (node : LinkMap) (map : Option Nat) (rela : List Rela)
    (content : Rela → elf_addr) (flags : BitVec 32) : Prop :=
  if flags &&& RTLD_LAZY = 0 then ∀ r ∈ rela, r.type = R_X86_64_JUMP_SLOT → Bound sys s elf node map r
  else ∀ r ∈ rela, r.type = R_X86_64_JUMP_SLOT → s.mem.loadWord 64 (slot r node.l_addr) = .ok (content r + node.l_addr)

/-- The nodes with the new one, behind the list's last one if RTLD_GLOBAL is given. -/
def linked (heap : Heap) (tail : Nat) (node : LinkMap) (flags : BitVec 32) : Heap :=
  if flags &&& RTLD_GLOBAL ≠ 0 then heap.append_node tail node else heap ++ [node]

/-- The lookups of the JUMP_SLOT symbols from `map` do not read what relocation writes. -/
def ReadsApart (sys : System) (heap : Heap) (m : Memory 64) {node : LinkMap} (lib : RelaFile sys node.l_name)
    (map : Option Nat) : Prop :=
  ∀ m₁ : Memory 64, m₁.hide (Memory.wordRegions 64 (Library.words lib node.l_addr)) =
      m.hide (Memory.wordRegions 64 (Library.words lib node.l_addr)) →
    ∀ r ∈ lib.plt_entries, r.type = R_X86_64_JUMP_SLOT → ∀ a,
      Finds sys heap m₁ lib.elf node map r a ↔ Finds sys heap m lib.elf node map r a

variable {first : Nat}

/-- A library that `_dlopen` returns was relocated lazily, whatever the flags. So
RTLD_LAZY is met for a library with a `.got.plt`, and for one at 0 or without
JUMP_SLOT entries; without RTLD_LAZY the flags are met exactly when, in the memory
that loading leaves, every JUMP_SLOT symbol is found at what lazy relocation makes
of its word. -/
theorem dlopen_bound_iff {s s' : State} {filename : CString} {flags : BitVec 32} {new : Nat}
    (hload : flags &&& RTLD_NOLOAD = 0) (h : _dlopen sys (some first) s (some filename) flags = .ok (some new, s')) :
    ∃ o : Opening sys first s filename flags (some new) s',
      ∀ (lib : RelaFile sys o.node.l_name) (content : Rela → elf_addr), Library.Apart lib o.node.l_addr →
        (∀ r ∈ lib.plt_entries, o.loaded.mem.loadWord 64 (slot r o.node.l_addr) = .ok (content r)) →
        ∀ map, (flags &&& RTLD_LAZY = 0 → ReadsApart sys (linked s.heap o.tail o.node flags) o.loaded.mem lib map) →
          (BoundAsAsked sys s' lib.elf o.node map lib.plt_entries content flags ↔
            if flags &&& RTLD_LAZY = 0 then
              ∀ r ∈ lib.plt_entries, r.type = R_X86_64_JUMP_SLOT →
                Finds sys (linked s.heap o.tail o.node flags) o.loaded.mem lib.elf o.node map r
                  (Library.relocated lib o.node.l_addr (content r))
            else lib.got_plt.isSome = true ∨ o.node.l_addr = 0 ∨ ∀ r ∈ lib.plt_entries, r.type ≠ R_X86_64_JUMP_SLOT) := by
  obtain ⟨o⟩ := _dlopen_opening hload h
  refine ⟨o, fun lib content hapart hcontent map hreads => ?_⟩
  have hheap : s'.heap = linked s.heap o.tail o.node flags := o.heap_eq
  have hword : ∀ r ∈ lib.plt_entries, s'.mem.loadWord 64 (slot r o.node.l_addr) =
      .ok (Library.relocated lib o.node.l_addr (content r)) := fun r hr =>
    Library.resolve_relocations_content lib List.getElem?_concat_length hapart o.resolve hr (hcontent r hr)
  have hhide := Library.resolve_relocations_hide lib List.getElem?_concat_length o.resolve
  unfold BoundAsAsked Bound
  by_cases hlazy : flags &&& RTLD_LAZY = 0
  · rw [if_pos hlazy, if_pos hlazy, hheap]
    refine forall₂_congr fun r hr => forall_congr' fun htype => ?_
    rw [← hreads hlazy s'.mem hhide r hr htype, hword r hr]
    constructor
    · rintro ⟨addr, hfinds, haddr⟩
      rwa [Outcome.ok.inj haddr]
    · exact fun hfinds => ⟨_, hfinds, rfl⟩
  · rw [if_neg hlazy, if_neg hlazy]
    have hequal : ∀ r : Rela, Library.relocated lib o.node.l_addr (content r) = content r + o.node.l_addr ↔
        lib.got_plt.isSome = true ∨ o.node.l_addr = 0 := by
      intro r
      unfold Library.relocated
      split
      · next hgot => simp [hgot]
      · next hgot => simp [hgot]
    constructor
    · intro hasked
      by_cases hnone : ∀ r ∈ lib.plt_entries, r.type ≠ R_X86_64_JUMP_SLOT
      · exact Or.inr (Or.inr hnone)
      · push Not at hnone
        obtain ⟨r, hr, htype⟩ := hnone
        have heq := Outcome.ok.inj ((hword r hr).symm.trans (hasked r hr htype))
        exact ((hequal r).mp heq).imp_right Or.inl
    · rintro hmet r hr htype
      rw [hword r hr, (hequal r).mpr]
      obtain hgot | hzero | hnone := hmet
      · exact Or.inl hgot
      · exact Or.inr hzero
      · exact absurd htype (hnone r hr)

/-- An object that defines `g`, and behind it the one that defines `f`. -/
def g_definer : Object :=
  .single importer.node (.lit "g") 7 0x40 0x200 0x300 (by decide) (by decide)

/-- A library that calls `f` through the PLT. Its one segment is the whole file;
`.got.plt` is at 0xb0, and the slot of `f` holds the address of the PLT stub. -/
def plt_content : List Byte :=
  image [⟨PT_LOAD, 7, 0, 0, 0x288, 0x288⟩, ⟨PT_NULL, 0, 0, 0x288, 0, 0⟩]
    [⟨.lit ".got.plt", 0xb0, leBytes 24 0 ++ leBytes 8 0x1006⟩,
      ⟨.lit ".dynsym", 0, [⟨0, 0, 0, 0⟩, ⟨1, SHN_UNDEF, 0, 0⟩].flatMap Sym.encode⟩,
      ⟨.lit ".dynstr", 0, 0#8 :: (CString.lit "f").bytes⟩,
      ⟨.lit ".rela.plt", 0, [⟨0xc8, 1#32 ++ R_X86_64_JUMP_SLOT, 0⟩].flatMap Rela.encode⟩]

def plt_sys : System :=
  .of_files [(.lit "a.so", g_definer.file.content), (.lit "b.so", definer.file.content), (.lit "/l", plt_content)]

def plt_state : State where
  heap := [g_definer.node, definer.node]
  mem := [g_definer, definer].foldl Object.place fun _ => none

/-- What is read of the library's file. -/
theorem plt_read :
    get_elf_ehdr plt_sys (.lit "/l") = .ok (Ehdr.decode plt_content) ∧
    (get_section plt_sys (Ehdr.decode plt_content) (.lit "/l") (.lit ".rela.plt") =
        .ok (some ([⟨0xc8, 1#32 ++ R_X86_64_JUMP_SLOT, 0⟩].flatMap Rela.encode)) ∧
      get_section_size plt_sys (Ehdr.decode plt_content) (.lit "/l") (.lit ".rela.plt") = .ok 1) ∧
    (get_section plt_sys (Ehdr.decode plt_content) (.lit "/l") (.lit ".rela.dyn") = .ok none ∧
      get_section_size plt_sys (Ehdr.decode plt_content) (.lit "/l") (.lit ".rela.dyn") = .ok 0) ∧
    get_got_plt plt_sys (Ehdr.decode plt_content) ⟨0, .lit "/l", none, none, none⟩ = .ok (some 0xb0) ∧
    name_from_dynsim_index plt_sys (Ehdr.decode plt_content) (.lit "/l") 1 = .ok (.lit "f") := by
  decide +kernel

def plt_lib : RelaFile plt_sys (.lit "/l") where
  elf := Ehdr.decode plt_content
  plt := some ([⟨0xc8, 1#32 ++ R_X86_64_JUMP_SLOT, 0⟩].flatMap Rela.encode)
  dyn := none
  got_plt := some 0xb0
  ehdr := plt_read.1
  rela_plt := plt_read.2.1.1
  plt_count := by
    rw [Option.getD_some, relas_encode]
    exact plt_read.2.1.2
  rela_dyn := plt_read.2.2.1.1
  dyn_count := plt_read.2.2.1.2
  got := plt_read.2.2.2.1

theorem plt_lib_entries : plt_lib.plt_entries = [⟨0xc8, 1#32 ++ R_X86_64_JUMP_SLOT, 0⟩] := relas_encode _

/-- What is seen of the state that opening the library leaves. -/
def open_plt {α : Type} (see : State → α) (flags : BitVec 32) : Outcome (Option Nat × α) := do
  let (handle, s) ← _dlopen plt_sys (some 0) plt_state (some (.lit "/l")) flags
  return (handle, see s)

theorem open_plt_eq_ok {α : Type} {see : State → α} {flags : BitVec 32} {handle : Option Nat} {x : α}
    (h : open_plt see flags = .ok (handle, x)) :
    ∃ s', _dlopen plt_sys (some 0) plt_state (some (.lit "/l")) flags = .ok (handle, s') ∧ see s' = x := by
  obtain ⟨⟨handle', s'⟩, hrun, hres⟩ := Outcome.bind_eq_ok_iff.mp h
  cases hres
  exact ⟨s', hrun, rfl⟩

/-- The library's node, its slot, and what the lookup of `f` finds from each of
the other objects. -/
def plt_view (s : State) : Option LinkMap × Outcome elf_addr × Outcome elf_addr × Outcome elf_addr :=
  (s.heap[2]?, s.mem.loadWord 64 0x70c8, link_map_lookup plt_sys s.heap s.mem (some 0) (.lit "f"),
    link_map_lookup plt_sys s.heap s.mem (some 1) (.lit "f"))

/-- RTLD_NOW leaves the slot at its PLT stub, while `f` is found elsewhere. -/
theorem dlopen_now_stub : ∃ s', _dlopen plt_sys (some 0) plt_state (some (.lit "/l")) RTLD_NOW = .ok (some 2, s') ∧
    s'.heap[2]? = some ⟨0x7000, .lit "/l", none, none, some 1⟩ ∧ s'.mem.loadWord 64 0x70c8 = .ok 0x8006 ∧
    ∀ map ∈ [0, 1], ∀ content, ¬ BoundAsAsked plt_sys s' plt_lib.elf ⟨0x7000, .lit "/l", none, none, some 1⟩ (some map)
      plt_lib.plt_entries content RTLD_NOW := by
  have hopen : open_plt plt_view RTLD_NOW = .ok (some 2, some ⟨0x7000, .lit "/l", none, none, some 1⟩, .ok 0x8006,
      .ok 0x2040, .ok 0x2040) := by decide +kernel
  obtain ⟨s', hrun, hsee⟩ := open_plt_eq_ok hopen
  simp only [plt_view, Prod.mk.injEq] at hsee
  obtain ⟨hnode, hslot, hfirst, hlast⟩ := hsee
  refine ⟨s', hrun, hnode, hslot, ?_⟩
  intro map hmap content hbound
  have hr : (⟨0xc8, 1#32 ++ R_X86_64_JUMP_SLOT, 0⟩ : Rela) ∈ plt_lib.plt_entries := by simp [plt_lib_entries]
  obtain ⟨addr, ⟨rela_name, hname, hlookup⟩, hword⟩ := hbound _ hr (by decide)
  have hf : rela_name = .lit "f" := Outcome.ok.inj (hname.symm.trans plt_read.2.2.2.2)
  have hslot' : slot ⟨0xc8, 1#32 ++ R_X86_64_JUMP_SLOT, 0⟩ 0x7000 = 0x70c8 := by decide
  rw [hslot', hslot, Outcome.ok.injEq] at hword
  rw [hf, ← hword] at hlookup
  obtain rfl | rfl := List.mem_pair.mp hmap
  · exact absurd (hfirst.symm.trans hlookup) (by decide)
  · exact absurd (hlast.symm.trans hlookup) (by decide)

/-- With RTLD_LAZY that is what was asked for. -/
theorem dlopen_lazy_stub : ∃ s',
    _dlopen plt_sys (some 0) plt_state (some (.lit "/l")) RTLD_LAZY = .ok (some 2, s') ∧
      s'.mem.loadWord 64 0x70c8 = .ok 0x8006 ∧
      BoundAsAsked plt_sys s' plt_lib.elf ⟨0x7000, .lit "/l", none, none, some 1⟩ (some 0) plt_lib.plt_entries
        (fun _ => 0x1006) RTLD_LAZY := by
  have hopen : open_plt plt_view RTLD_LAZY = .ok (some 2, some ⟨0x7000, .lit "/l", none, none, some 1⟩, .ok 0x8006,
      .ok 0x2040, .ok 0x2040) := by decide +kernel
  obtain ⟨s', hrun, hsee⟩ := open_plt_eq_ok hopen
  simp only [plt_view, Prod.mk.injEq] at hsee
  obtain ⟨hheap, hslot, -, -⟩ := hsee
  have hslot' : slot ⟨0xc8, 1#32 ++ R_X86_64_JUMP_SLOT, 0⟩ 0x7000 = 0x70c8 := by decide
  have hapart : Library.Apart plt_lib 0x7000 := by
    constructor
    · rw [plt_lib_entries]
      exact List.pairwise_singleton _ _
    · rintro g ⟨⟩ w hw r hr
      rw [plt_lib_entries, List.mem_singleton] at hr
      subst hr
      obtain rfl | rfl := List.mem_pair.mp hw <;> exact Region.disjoint_iff_clear.mpr (by decide +kernel)
    · rintro d ⟨⟩
  obtain ⟨o, hiff⟩ := dlopen_bound_iff (by decide) hrun
  have hresolve := o.resolve
  have hnode : o.node = ⟨0x7000, .lit "/l", none, none, some 1⟩ := by
    rw [o.heap_eq, if_neg (by decide)] at hheap
    exact Option.some.inj hheap
  rw [hnode] at hiff hresolve
  have hcontent : ∀ r ∈ plt_lib.plt_entries, o.loaded.mem.loadWord 64 (slot r 0x7000) = .ok 0x1006 := by
    intro r hr
    obtain ⟨c, hc⟩ := Library.loadWord_of_resolve plt_lib rfl rfl hapart hresolve hr
    have hword := Library.resolve_relocations_content plt_lib rfl hapart hresolve hr hc
    rw [plt_lib_entries, List.mem_singleton] at hr
    subst hr
    rw [hslot', hslot, Outcome.ok.injEq] at hword
    have hadded : 0x8006 = c + 0x7000#64 := hword
    have hc' : c = 0x1006 := by
      rw [show c = (c + 0x7000#64) - 0x7000#64 by ring, ← hadded]
      rfl
    rw [hc, hc']
  exact ⟨s', hrun, hslot, (hiff plt_lib (fun _ => 0x1006) hapart hcontent (some 0) fun hzero => absurd hzero (by decide)).mpr
    (Or.inl rfl)⟩

end ldso.libdl
