import LdSo.Relocations.Frame
import LdSo.Relocations.Lazy
import LdSo.Relocations.Library

open cmodel

namespace ldso.relocations

open elf elf_manipulation symbol_resolution

section Lookup

variable {sys : System} {heap : Heap} {m : Memory 64} {elf : Ehdr} {next : LinkMap} {map : Option Nat}
  {hidden : List (Region 64)}

/-- The address is the one that the symbol of the entry is resolved to: the lookup
finds it there in a memory where at most the hidden words differ. -/
def ResolvesTo (sys : System) (heap : Heap) (m : Memory 64) (elf : Ehdr) (next : LinkMap) (map : Option Nat)
    (hidden : List (Region 64)) (rela : Rela) (addr : elf_addr) : Prop :=
  ∃ m₁ : Memory 64, m₁.hide hidden = m.hide hidden ∧ Finds sys heap m₁ elf next map rela addr

theorem Finds.unique {rela : Rela} {a b : elf_addr} (ha : Finds sys heap m elf next map rela a)
    (hb : Finds sys heap m elf next map rela b) : a = b := by
  obtain ⟨rela_name, hname, ha⟩ := ha
  obtain ⟨rela_name', hname', hb⟩ := hb
  obtain rfl : rela_name = rela_name' := Outcome.ok.inj (hname.symm.trans hname')
  exact Outcome.ok.inj (ha.symm.trans hb)

/-- Where the lookup does not read the hidden words, there is one such address. -/
theorem resolvesTo_iff_of_finds {rela : Rela} {a b : elf_addr}
    (hfinds : Finds sys heap (m.hide hidden) elf next map rela b) :
    ResolvesTo sys heap m elf next map hidden rela a ↔ a = b := by
  constructor
  · rintro ⟨m₁, hsame, ha⟩
    rw [← hsame] at hfinds
    exact ha.unique (hfinds.mono (Memory.hide_sub m₁ hidden))
  · rintro rfl
    exact ⟨m, rfl, hfinds.mono (Memory.hide_sub m hidden)⟩

/-- When `relocation_lookup` of symbolic entries whose words do not meet returns,
every word holds the address that its symbol is resolved to. -/
theorem relocation_lookup_loop_resolves {rela : List Rela} {m' : Memory 64} (hsym : ∀ r ∈ rela, r.Symbolic)
    (hapart : Memory.Apart 64 (rela.map (slot · next.l_addr)))
    (hhidden : ∀ r ∈ rela, Memory.wordRegion 64 (slot r next.l_addr) ∈ hidden)
    (h : relocation_lookup_loop sys heap elf next map rela.length rela m = .ok m') :
    ∀ r ∈ rela, ∃ a, ResolvesTo sys heap m elf next map hidden r a ∧ m'.loadWord 64 (slot r next.l_addr) = .ok a := by
  induction rela generalizing m with
  | nil => simp
  | cons r rest ih =>
    obtain ⟨hhead, htail⟩ := List.pairwise_cons.mp hapart
    obtain ⟨a, hfinds, hwr, h⟩ := relocation_lookup_loop_binds (hsym r (by simp)) h
    intro s hs
    obtain rfl | hs := List.mem_cons.mp hs
    · refine ⟨a, ⟨m, rfl, hfinds⟩, ?_⟩
      rw [relocation_lookup_loop_frame (fun t ht => (hhead _ (List.mem_map_of_mem ht)).symm) h]
      exact Memory.loadWord_putWord_same rfl (by decide) hwr
    · obtain ⟨b, ⟨m₁, hsame, hfound⟩, hword⟩ := ih (fun t ht => hsym t (by simp [ht])) htail
        (fun t ht => hhidden t (by simp [ht])) h s hs
      exact ⟨b, ⟨m₁, hsame.trans (Memory.hide_putWord (hhidden r (by simp))), hfound⟩, hword⟩

end Lookup

variable {sys : System} {heap : Heap} {m m' : Memory 64} {next : Nat} {node : LinkMap} {map : Option Nat}
  {got : elf_addr} {content : Rela → elf_addr} {lazy : Bool}

namespace RelaFile

/-- Loaded at `l_addr`, with its global offset table at `got`: the words that the
PLT jumps through avoid each other and the two words for the trampoline, and
`.rela.dyn` names none of these. -/
structure Apart {name : CString} (lib : RelaFile sys name) (l_addr got : elf_addr) : Prop where
  slots : Memory.Apart 64 (lib.plt_entries.map (slot · l_addr))
  table : ∀ w ∈ [got + 8#64, got + 16#64], ∀ r ∈ lib.plt_entries,
    (Memory.wordRegion 64 w).Disjoint (Memory.wordRegion 64 (slot r l_addr))
  dyn : ∀ d ∈ lib.dyn_entries, ∀ w ∈ [got + 8#64, got + 16#64] ++ lib.plt_entries.map (slot · l_addr),
    (Memory.wordRegion 64 (slot d l_addr)).Disjoint (Memory.wordRegion 64 w)

/-- The symbol of the entry is resolved to the address, where other words that the
PLT jumps through may be bound already. -/
def ResolvesSlot (lib : RelaFile sys node.l_name) (heap : Heap) (m : Memory 64) (map : Option Nat) (r : Rela)
    (a : elf_addr) : Prop :=
  ResolvesTo sys heap m lib.elf node map (Memory.wordRegions 64 (lib.plt_entries.map (slot · node.l_addr))) r a

/-- Relocation took the object from `m` to `m'` and settled the entry: its word
holds the symbol's address, or its content plus `l_addr` with the trampoline
behind it. -/
def Settled (lib : RelaFile sys node.l_name) (heap : Heap) (m m' : Memory 64) (next : Nat) (map : Option Nat)
    (got : elf_addr) (content : Rela → elf_addr) (r : Rela) : Prop :=
  (∃ a, lib.ResolvesSlot heap m map r a ∧ m'.loadWord 64 (slot r node.l_addr) = .ok a) ∨
    m'.loadWord 64 (slot r node.l_addr) = .ok (content r + node.l_addr) ∧ Installed sys m' got next

/-- The two passes over an object with entries: what the first one leaves in the
words of the PLT and of the table stays there in the second one. -/
theorem resolve_relocations_passes (lib : RelaFile sys node.l_name) (hnode : heap[next]? = some node)
    (hapart : lib.Apart node.l_addr got) {r : Rela} (hr : r ∈ lib.plt_entries)
    (h : resolve_relocations sys heap m next map lazy = .ok m') :
    ∃ m₁, (if lazy then relocation_lazy sys heap m next lib.plt_entries lib.plt_entries.length
        else relocation_lookup sys heap m lib.plt_entries lib.plt_entries.length node map) = .ok m₁ ∧
      ∀ w ∈ [got + 8#64, got + 16#64] ++ lib.plt_entries.map (slot · node.l_addr), m'.loadWord 64 w = m₁.loadWord 64 w := by
  rw [lib.resolve_relocations_eq hnode] at h
  obtain ⟨m₁, hplt, hdyn⟩ := Outcome.bind_eq_ok_iff.mp h
  refine ⟨m₁, ?_, fun w hw => relocation_lookup_frame (fun d hd => hapart.dyn d hd w hw) hdyn⟩
  cases hbuf : lib.plt with
  | none =>
    rw [plt_entries, hbuf] at hr
    cases hr
  | some buf =>
    rw [hbuf] at hplt
    exact hplt

/-- Eager relocation settles every entry with its symbol's address. -/
theorem settled_of_now (lib : RelaFile sys node.l_name) (hnode : heap[next]? = some node)
    (hjump : ∀ r ∈ lib.plt_entries, r.type = R_X86_64_JUMP_SLOT) (hapart : lib.Apart node.l_addr got)
    (h : resolve_relocations sys heap m next map false = .ok m') :
    ∀ r ∈ lib.plt_entries, lib.Settled heap m m' next map got content r := by
  intro r hr
  obtain ⟨m₁, hlookup, hkept⟩ := lib.resolve_relocations_passes hnode hapart hr h
  simp only [relocation_lookup, lib.ehdr, Outcome.ok_bind, Int.toNat_natCast, Bool.false_eq_true, if_false] at hlookup
  have hhidden : ∀ t ∈ lib.plt_entries, Memory.wordRegion 64 (slot t node.l_addr) ∈
      Memory.wordRegions 64 (lib.plt_entries.map (slot · node.l_addr)) :=
    fun t ht => List.mem_map_of_mem (List.mem_map_of_mem ht)
  obtain ⟨a, hresolves, hword⟩ := relocation_lookup_loop_resolves (fun t ht => Or.inl (hjump t ht)) hapart.slots
    hhidden hlookup r hr
  refine Or.inl ⟨a, hresolves, ?_⟩
  rw [hkept _ (List.mem_append_right _ (List.mem_map_of_mem hr)), hword]

/-- Lazy relocation of an object with a `.got.plt` settles every entry with the trampoline. -/
theorem settled_of_got_plt (lib : RelaFile sys node.l_name) (hnode : heap[next]? = some node)
    (hgot : get_got_plt sys lib.elf node = .ok (some got)) (hapart : lib.Apart node.l_addr got)
    (hcontent : ∀ r ∈ lib.plt_entries, m.loadWord 64 (slot r node.l_addr) = .ok (content r))
    (h : resolve_relocations sys heap m next map true = .ok m') :
    ∀ r ∈ lib.plt_entries, lib.Settled heap m m' next map got content r := by
  intro r hr
  obtain ⟨m₁, hlazy, hkept⟩ := lib.resolve_relocations_passes hnode hapart hr h
  obtain ⟨⟨hone, htwo⟩, hslots⟩ := relocation_lazy_installs hnode lib.ehdr hgot hapart.slots hapart.table hlazy
  obtain ⟨c, hc, hword⟩ := hslots r hr
  obtain rfl : content r = c := Outcome.ok.inj ((hcontent r hr).symm.trans hc)
  refine Or.inr ⟨?_, ?_, ?_⟩
  · rw [hkept _ (List.mem_append_right _ (List.mem_map_of_mem hr)), hword]
  · rw [hkept _ (by simp), hone]
  · rw [hkept _ (by simp), htwo]

/-- Lazy relocation of an object without one leaves every word as it is. -/
theorem settled_iff_of_no_got_plt (lib : RelaFile sys node.l_name) (hnode : heap[next]? = some node)
    (hgot : get_got_plt sys lib.elf node = .ok none) (hapart : lib.Apart node.l_addr got)
    (h : resolve_relocations sys heap m next map true = .ok m') {r : Rela} (hr : r ∈ lib.plt_entries)
    (hcontent : m.loadWord 64 (slot r node.l_addr) = .ok (content r)) :
    lib.Settled heap m m' next map got content r ↔
      lib.ResolvesSlot heap m map r (content r) ∨ node.l_addr = 0 ∧ Installed sys m got next := by
  obtain ⟨m₁, hlazy, hkept⟩ := lib.resolve_relocations_passes hnode hapart hr h
  obtain rfl : m = m₁ := by
    simp only [if_true, relocation_lazy, hnode, Outcome.ofOption_some, Outcome.ok_bind, lib.ehdr, hgot] at hlazy
    exact Outcome.ok.inj hlazy
  have hword : m'.loadWord 64 (slot r node.l_addr) = .ok (content r) :=
    (hkept _ (List.mem_append_right _ (List.mem_map_of_mem hr))).trans hcontent
  unfold Settled Installed
  rw [hword, hkept _ (by simp), hkept _ (by simp)]
  refine or_congr ?_ (and_congr_left fun _ => ?_)
  · constructor
    · rintro ⟨a, hresolves, ha⟩
      rwa [Outcome.ok.inj ha]
    · exact fun hresolves => ⟨content r, hresolves, rfl⟩
  · rw [Outcome.ok.injEq, left_eq_add]

end RelaFile

/-- Relocation settles every JUMP_SLOT entry of an object, except lazy relocation of
one without a section whose name begins with `.got.plt`. That leaves the words as
they were linked, and they are right only when the object is linked to the
addresses its symbols have, or when it lies at 0 and the trampoline is there already. -/
theorem resolve_relocations_settles_iff (hnode : heap[next]? = some node) (lib : RelaFile sys node.l_name)
    (hjump : ∀ r ∈ lib.plt_entries, r.type = R_X86_64_JUMP_SLOT) (hgot : ∀ g ∈ lib.got_plt, g + node.l_addr = got)
    (hapart : lib.Apart node.l_addr got)
    (hcontent : ∀ r ∈ lib.plt_entries, m.loadWord 64 (slot r node.l_addr) = .ok (content r))
    (h : resolve_relocations sys heap m next map lazy = .ok m') :
    (∀ r ∈ lib.plt_entries, lib.Settled heap m m' next map got content r) ↔
      lazy = false ∨ lib.got_plt.isSome = true ∨
        ∀ r ∈ lib.plt_entries,
          lib.ResolvesSlot heap m map r (content r) ∨ node.l_addr = 0 ∧ Installed sys m got next := by
  cases lazy with
  | false => exact iff_of_true (lib.settled_of_now hnode hjump hapart h) (Or.inl rfl)
  | true =>
    have hsearch := get_got_plt_at lib.got
    cases hfound : lib.got_plt with
    | some g =>
      rw [hfound, Option.map_some, hgot g hfound] at hsearch
      exact iff_of_true (lib.settled_of_got_plt hnode hsearch hapart hcontent h) (Or.inr (Or.inl rfl))
    | none =>
      rw [hfound, Option.map_none] at hsearch
      simp only [Bool.true_eq_false, Option.isSome_none, Bool.false_eq_true, false_or]
      exact forall₂_congr fun r hr => lib.settled_iff_of_no_got_plt hnode hsearch hapart h hr (hcontent r hr)

/-- What is read of the file with two entries, and that both modes come to an end. -/
theorem pair_read :
    (get_elf_ehdr pair_sys pair_caller.node.l_name = .ok pair_caller.elf ∧
      get_section_size pair_sys pair_caller.elf pair_caller.node.l_name (.lit ".rela.plt") = .ok 2 ∧
      get_section pair_sys pair_caller.elf pair_caller.node.l_name (.lit ".rela.dyn") = .ok none ∧
      get_section_size pair_sys pair_caller.elf pair_caller.node.l_name (.lit ".rela.dyn") = .ok 0 ∧
      get_got_plt pair_sys pair_caller.elf ⟨0, pair_caller.node.l_name, none, none, none⟩ = .ok (some 0x3000)) ∧
    ((resolve_relocations pair_sys pair_heap pair_memory 1 (some 0) true).bind fun m => .ok (m.loadWord 64 0x4020)) =
      .ok (.ok 0x2016) ∧
    ((resolve_relocations pair_sys pair_heap pair_memory 1 (some 0) false).bind fun m => .ok (m.loadWord 64 0x4020)) =
      .ok (.ok 0x2060) := by
  decide +kernel

def pair_library : RelaFile pair_sys pair_caller.node.l_name where
  elf := pair_caller.elf
  plt := some pair_caller.buf
  dyn := none
  got_plt := some 0x3000
  ehdr := pair_caller.ehdr
  rela_plt := pair_caller.rela_plt
  plt_count := by
    rw [Option.getD_some, show relas pair_caller.buf = _ from pair_rela]
    exact pair_read.1.2.1
  rela_dyn := pair_read.1.2.2.1
  dyn_count := pair_read.1.2.2.2.1
  got := pair_read.1.2.2.2.2

theorem pair_entries : pair_library.plt_entries = [plt_rela 1 0x18, plt_rela 2 0x20] := pair_rela

theorem pair_apart : pair_library.Apart pair_caller.node.l_addr 0x4000 where
  slots := by
    rw [pair_entries]
    exact List.pairwise_pair.mpr (Region.disjoint_of_bases (by decide +kernel) (by decide +kernel))
  table w hw r hr := by
    rw [pair_entries] at hr
    obtain rfl | rfl := List.mem_pair.mp hw <;> obtain rfl | rfl := List.mem_pair.mp hr <;>
      exact Region.disjoint_of_bases (by decide +kernel) (by decide +kernel)
  dyn := by
    rintro d ⟨⟩

/-- In both modes both words of the caller are settled: relocated at once they have the
addresses of the two names, lazily those of their PLT stubs. -/
theorem resolve_relocations_pair :
    (∃ m', resolve_relocations pair_sys pair_heap pair_memory 1 (some 0) true = .ok m' ∧
      m'.loadWord 64 0x4020 = .ok 0x2016 ∧
      ∀ r ∈ pair_library.plt_entries, pair_library.Settled pair_heap pair_memory m' 1 (some 0) 0x4000 pair_content r) ∧
    ∃ m', resolve_relocations pair_sys pair_heap pair_memory 1 (some 0) false = .ok m' ∧
      m'.loadWord 64 0x4020 = .ok 0x2060 ∧
      ∀ r ∈ pair_library.plt_entries, pair_library.Settled pair_heap pair_memory m' 1 (some 0) 0x4000 pair_content r := by
  have hjump : ∀ r ∈ pair_library.plt_entries, r.type = R_X86_64_JUMP_SLOT := by
    rw [pair_entries]
    decide
  have hgot : ∀ g ∈ pair_library.got_plt, g + pair_caller.node.l_addr = 0x4000 := by
    rintro g ⟨⟩
    decide
  have hsettles : ∀ {lazy : Bool} {m' : Memory 64},
      resolve_relocations pair_sys pair_heap pair_memory 1 (some 0) lazy = .ok m' →
        ∀ r ∈ pair_library.plt_entries, pair_library.Settled pair_heap pair_memory m' 1 (some 0) 0x4000 pair_content r :=
    fun hrun => (resolve_relocations_settles_iff rfl pair_library hjump hgot pair_apart pair_setup.content hrun).mpr
      (Or.inr (Or.inl rfl))
  obtain ⟨m₁, hlazy, hstub⟩ := Outcome.bind_eq_ok_iff.mp pair_read.2.1
  obtain ⟨m₂, hnow, haddr⟩ := Outcome.bind_eq_ok_iff.mp pair_read.2.2
  exact ⟨⟨m₁, hlazy, Outcome.ok.inj hstub, hsettles hlazy⟩, m₂, hnow, Outcome.ok.inj haddr, hsettles hnow⟩

def merged_rela : List Rela := [⟨0x3018, 1#32 ++ R_X86_64_JUMP_SLOT, 0⟩]

/-- The caller of `f` again, with its `.got.plt` merged into `.got`. -/
def merged_content : List Byte :=
  image [] [⟨.lit ".dynsym", 0, [⟨0, 0, 0, 0⟩, ⟨1, SHN_UNDEF, 0, 0⟩].flatMap Sym.encode⟩,
    ⟨.lit ".dynstr", 0, 0#8 :: (CString.lit "f").bytes⟩,
    ⟨.lit ".rela.plt", 0, merged_rela.flatMap Rela.encode⟩,
    ⟨.lit ".got", 0x3000, []⟩]

def merged_sys : System := .of_files [(.lit "a.so", merged_content), (.lit "b.so", definer.file.content)]

/-- What is read of the file, and the word of `f` with what relocation leaves in it. -/
theorem merged_read :
    (get_elf_ehdr merged_sys (.lit "a.so") = .ok (Ehdr.decode merged_content) ∧
      get_section merged_sys (Ehdr.decode merged_content) (.lit "a.so") (.lit ".rela.plt") =
        .ok (some (merged_rela.flatMap Rela.encode)) ∧
      get_section_size merged_sys (Ehdr.decode merged_content) (.lit "a.so") (.lit ".rela.plt") = .ok 1 ∧
      get_section merged_sys (Ehdr.decode merged_content) (.lit "a.so") (.lit ".rela.dyn") = .ok none ∧
      get_section_size merged_sys (Ehdr.decode merged_content) (.lit "a.so") (.lit ".rela.dyn") = .ok 0 ∧
      get_got_plt merged_sys (Ehdr.decode merged_content) ⟨0, .lit "a.so", none, none, none⟩ = .ok none) ∧
    (caller_memory.loadWord 64 0x4018 = .ok 0x1006 ∧
      name_from_dynsim_index merged_sys (Ehdr.decode merged_content) (.lit "a.so") 1 = .ok (.lit "f") ∧
      link_map_lookup merged_sys caller_heap (caller_memory.hide (Memory.wordRegions 64 [0x4018])) (some 0) (.lit "f") =
        .ok 0x2040) ∧
    ((resolve_relocations merged_sys caller_heap caller_memory 1 (some 0) true).bind fun m => .ok (m.loadWord 64 0x4018)) =
      .ok (.ok 0x1006) ∧
    ((resolve_relocations merged_sys caller_heap caller_memory 1 (some 0) false).bind fun m => .ok (m.loadWord 64 0x4018)) =
      .ok (.ok 0x2040) := by
  decide +kernel

def merged_node : LinkMap := ⟨0x1000, .lit "a.so", none, none, some 0⟩

def merged : RelaFile merged_sys merged_node.l_name where
  elf := Ehdr.decode merged_content
  plt := some (merged_rela.flatMap Rela.encode)
  dyn := none
  got_plt := none
  ehdr := merged_read.1.1
  rela_plt := merged_read.1.2.1
  plt_count := by
    rw [Option.getD_some, relas_encode]
    exact merged_read.1.2.2.1
  rela_dyn := merged_read.1.2.2.2.1
  dyn_count := merged_read.1.2.2.2.2.1
  got := merged_read.1.2.2.2.2.2

theorem merged_entries : merged.plt_entries = merged_rela := relas_encode _

theorem merged_slot {r : Rela} (hr : r ∈ merged.plt_entries) :
    r = ⟨0x3018, 1#32 ++ R_X86_64_JUMP_SLOT, 0⟩ ∧ slot r merged_node.l_addr = 0x4018 := by
  rw [merged_entries, merged_rela, List.mem_singleton] at hr
  subst hr
  exact ⟨rfl, by decide⟩

/-- Relocated lazily, it keeps the link-time address of its PLT stub. -/
theorem resolve_relocations_merged_lazy : ∃ m',
    resolve_relocations merged_sys caller_heap caller_memory 1 (some 0) true = .ok m' ∧
      caller_memory.loadWord 64 0x4018 = .ok 0x1006 ∧ m'.loadWord 64 0x4018 = .ok 0x1006 ∧
      ¬ ∀ r ∈ merged.plt_entries, merged.Settled caller_heap caller_memory m' 1 (some 0) 0x4000 (fun _ => 0x1006) r := by
  obtain ⟨m', hrun, hword⟩ := Outcome.bind_eq_ok_iff.mp merged_read.2.2.1
  rw [Outcome.ok.injEq] at hword
  refine ⟨m', hrun, merged_read.2.1.1, hword, ?_⟩
  intro hall
  have hr : (⟨0x3018, 1#32 ++ R_X86_64_JUMP_SLOT, 0⟩ : Rela) ∈ merged.plt_entries := by simp [merged_entries, merged_rela]
  have hslot := (merged_slot hr).2
  have hfinds : Finds merged_sys caller_heap (caller_memory.hide (Memory.wordRegions 64
      (merged.plt_entries.map (slot · merged_node.l_addr)))) merged.elf merged_node (some 0)
      ⟨0x3018, 1#32 ++ R_X86_64_JUMP_SLOT, 0⟩ 0x2040 := by
    rw [merged_entries, merged_rela, List.map_singleton, hslot]
    exact ⟨.lit "f", merged_read.2.1.2⟩
  obtain ⟨a, hresolves, ha⟩ | ⟨hadded, -⟩ := hall _ hr
  · obtain rfl := (resolvesTo_iff_of_finds hfinds).mp hresolves
    rw [hslot, hword] at ha
    exact absurd ha (by decide)
  · rw [hslot, hword] at hadded
    exact absurd hadded (by decide)

end ldso.relocations
