import LdSo.Main
import LdSo.Relocations.Passes

open cmodel

namespace ldso

open elf elf_manipulation relocations symbol_resolution

variable {sys : System} {heap : Heap} {m : Memory 64} {lazy : Bool}

/-- The words that relocation of the objects may write. -/
def words (objs : List (Linked sys)) : List elf_addr := objs.flatMap Linked.words

/-- The words of their tables among these. -/
def got_words (objs : List (Linked sys)) : List elf_addr := objs.flatMap Linked.got_words

/-- The words that their PLTs jump through. -/
def plt_words (objs : List (Linked sys)) : List elf_addr := objs.flatMap fun o => o.lib.plt_entries.map o.slot

/-- What relocation of the objects writes. -/
def writes (objs : List (Linked sys)) (content : elf_addr → elf_addr) (addr : Linked sys → Rela → elf_addr)
    (lazy : Bool) : List (elf_addr × elf_addr) :=
  objs.flatMap fun o => o.writes content (addr o) lazy

theorem writes_sublist {objs : List (Linked sys)} {content : elf_addr → elf_addr} {addr : Linked sys → Rela → elf_addr} :
    ((writes objs content addr lazy).map Prod.fst).Sublist (words objs) := by
  unfold writes
  rw [List.map_flatMap]
  exact List.Sublist.flatMap_right objs fun o _ => Linked.writes_sublist

/-- The loop relocates the objects of a chain one after another, up to the node
before the last. -/
theorem relocate_loop_writes {objs : List (Linked sys)} {map : Option Nat} {hidden : List (Region 64)}
    {addr : Linked sys → Rela → elf_addr} {content : elf_addr → elf_addr} {last n next : Nat}
    (hchain : NextChain heap (some next) (objs.map Linked.map ++ [last])) (hn : objs.length < n)
    (hready : ∀ o ∈ objs, o.Ready heap m map hidden (addr o)) (hapart : Memory.Apart 64 (words objs))
    (hcontent : ∀ o ∈ objs, ∀ r ∈ o.lib.plt_entries, m.loadWord 64 (o.slot r) = .ok (content (o.slot r))) :
    relocate_loop sys heap map lazy n next m = .ok (objs.map Linked.map, m.putWords (writes objs content addr lazy)) := by
  induction objs generalizing m n next with
  | nil =>
    obtain ⟨hhead, v, hv, htail⟩ := hchain
    obtain rfl : next = last := Option.some.inj hhead
    have hnull : v.l_next = none := htail
    cases n with
    | zero => exact absurd hn (Nat.not_lt_zero _)
    | succ n =>
      rw [relocate_loop, hv, Outcome.ofOption_some, Outcome.ok_bind, hnull]
      rfl
  | cons o rest ih =>
    cases n with
    | zero => exact absurd hn (Nat.not_lt_zero _)
    | succ n =>
      obtain ⟨hhead, v, hv, hchain⟩ := hchain
      obtain rfl : next = o.map := Option.some.inj hhead
      have ho := hready o List.mem_cons_self
      obtain ⟨-, happart_rest, hdis⟩ := List.pairwise_append.mp hapart
      have hhidden : ∀ x ∈ o.writes content (addr o) lazy, Memory.wordRegion 64 x.1 ∈ hidden := fun x hx =>
        ho.hidden _ (Linked.writes_mem hx)
      -- the words of the objects behind it are as they were
      have hlater : ∀ p ∈ rest, ∀ r ∈ p.lib.plt_entries,
          (m.putWords (o.writes content (addr o) lazy)).loadWord 64 (p.slot r) = .ok (content (p.slot r)) := by
        intro p hp r hr
        rw [Memory.loadWord_putWords_of_disjoint fun x hx => hdis _ (Linked.writes_mem hx) _
          (List.mem_flatMap.mpr ⟨p, hp, Linked.slot_mem_plt hr⟩)]
        exact hcontent p (List.mem_cons_of_mem _ hp) r hr
      obtain ⟨q, hq⟩ : ∃ q, v.l_next = some q := by
        cases rest with
        | nil => exact ⟨last, hchain.1⟩
        | cons p _ => exact ⟨p.map, hchain.1⟩
      rw [hq] at hchain
      have hloop := ih hchain (Nat.lt_of_succ_lt_succ hn)
        (fun p hp => (hready p (List.mem_cons_of_mem _ hp)).putWords hhidden) happart_rest hlater
      simp only [relocate_loop, hv, Outcome.ofOption_some, Outcome.ok_bind, hq,
        ho.resolve_relocations_writes (hcontent o List.mem_cons_self), hloop]
      simp [writes, Memory.putWords, List.foldl_append]

/-- A link map with head `H`. Its objects up to the last one are ready for
relocation, and none shares a word with another. -/
structure Linking (heap : Heap) (m : Memory 64) (H last : Nat) (objs : List (Linked sys))
    (addr : Linked sys → Rela → elf_addr) : Prop where
  list : IsLinkMap heap (some H) (objs.map Linked.map ++ [last])
  apart : Memory.Apart 64 (words objs)
  ready : ∀ o ∈ objs, o.Ready heap m (some H) (Memory.wordRegions 64 (words objs)) (addr o)

/-- The states that a program can reach after start-up: PLT calls of any of the
objects, recorded by the words they bind, and objects that are appended to the list
together with the memory they occupy. -/
inductive Running (H : Nat) (objs : List (Linked sys)) (heap₀ : Heap) (m₀ : Memory 64) :
    Heap → Memory 64 → List elf_addr → Prop where
  | started : Running H objs heap₀ m₀ heap₀ m₀ []
  | call {heap m called} {o : Linked sys} {i : Nat} {r : Rela} {a m'} (run : Running H objs heap₀ m₀ heap m called)
      (ho : o ∈ objs) (hi : o.lib.plt_entries[i]? = some r)
      (hcall : runtime_relocations sys heap m o.map i = .ok (a, m')) :
      Running H objs heap₀ m₀ heap m' (o.slot r :: called)
  | append {heap m called tail m'} (run : Running H objs heap₀ m₀ heap m called) (node : LinkMap)
      (htail : follow LinkMap.l_next heap heap.length H = .ok tail) (hmap : m.Sub m') :
      Running H objs heap₀ m₀ (heap.append_node tail node) m' called

/-- What every reachable state keeps: the list only grew, and nothing but the words
changed. Those that were called hold the table `eager`, the others the table `lazy`. -/
structure RunningInv (heap₀ : Heap) (m₀ : Memory 64) (H last : Nat) (objs : List (Linked sys))
    (lazy eager : elf_addr → elf_addr) (heap : Heap) (m : Memory 64) (called : List elf_addr) : Prop where
  list : ∃ more, IsLinkMap heap (some H) (objs.map Linked.map ++ [last] ++ more)
  keeps : heap₀.Keeps heap
  table : Memory.Table (words objs) m₀ m fun w => if w ∈ called then eager w else lazy w

namespace Linking

variable {H last : Nat} {objs : List (Linked sys)} {addr : Linked sys → Rela → elf_addr} {m₀ : Memory 64} {heap₀ : Heap}
  {content l e : elf_addr → elf_addr} {called : List elf_addr}

/-- A PLT call in a state of the run binds its word and returns the address. -/
theorem runtime_relocations_eq (h : Linking heap₀ m₀ H last objs addr)
    (hinv : RunningInv heap₀ m₀ H last objs l e heap m called) {o : Linked sys} (ho : o ∈ objs) {i : Nat} {r : Rela}
    (hi : o.lib.plt_entries[i]? = some r) :
    runtime_relocations sys heap m o.map i = .ok (addr o r, m.putWord (o.slot r) (addr o r)) := by
  have hr : r ∈ o.lib.plt_entries := List.mem_of_getElem? hi
  have hready := h.ready o ho
  obtain ⟨more, hlist⟩ := hinv.list
  obtain ⟨ps, hps⟩ : ∃ ps, objs.map Linked.map ++ [last] ++ more = H :: ps := by
    cases hall : objs.map Linked.map ++ [last] ++ more with
    | nil => simp at hall
    | cons p ps =>
      rw [hall] at hlist
      rw [Option.some.inj hlist.chain.1]
      exact ⟨ps, rfl⟩
  have hmem : o.map ∈ H :: ps := hps ▸ List.mem_append_left _ (List.mem_append_left _ (List.mem_map_of_mem ho))
  obtain ⟨v, hv, hname, haddr⟩ := hinv.keeps o.map o.node hready.node
  have hhead : follow LinkMap.l_prev heap heap.length o.map = .ok H := by
    rw [hps] at hlist
    exact Segment.follow_prev_of_mem hlist hmem hlist.chain.length_le
  obtain ⟨buf, hbuf⟩ : ∃ buf, o.lib.plt = some buf := by
    cases hplt : o.lib.plt with
    | none =>
      rw [RelaFile.plt_entries, hplt] at hi
      cases hi
    | some buf => exact ⟨buf, rfl⟩
  have hget : (relas buf)[i]? = some r := by
    rw [RelaFile.plt_entries, hbuf] at hi
    exact hi
  have hbinds : r.Binds := Or.inl (Or.inl (hready.jump_slots r hr))
  obtain ⟨rela_name, hrela, hlookup⟩ := hready.finds r (List.mem_append_left _ hr) hbinds
  have hgrown : link_map_lookup sys heap m (some H) rela_name = .ok (addr o r) :=
    link_map_lookup_grow h.list.chain hlist.chain hinv.keeps (hinv.table.keeps.trans (Memory.hide_sub _ _)) hlookup
  have hslot : o.slot r ∈ words objs := List.mem_flatMap.mpr ⟨o, ho, Linked.slot_mem_plt hr⟩
  have hstore : m.storeWord (slot r o.node.l_addr) (addr o r) = .ok (m.putWord (o.slot r) (addr o r)) :=
    Memory.storeWord_eq_ok _ (hinv.table.writable _ hslot)
  simp only [runtime_relocations, hhead, hv, Outcome.ok_bind, Outcome.ofOption_some, hname, haddr, o.lib.ehdr,
    o.lib.rela_plt, hbuf, if_neg (show ¬ (i : Int) < 0 by omega), Int.toNat_natCast, hget, hrela, hgrown]
  rw [if_pos (link_map_lookup_ne_zero hgrown), hstore]
  rfl

/-- A PLT call keeps the invariant. -/
theorem inv_call (h : Linking heap₀ m₀ H last objs addr) (hinv : RunningInv heap₀ m₀ H last objs l e heap m called)
    {o : Linked sys} (ho : o ∈ objs) {i : Nat} {r : Rela} (hi : o.lib.plt_entries[i]? = some r)
    (he : e (o.slot r) = addr o r) {a : elf_addr} {m' : Memory 64}
    (hcall : runtime_relocations sys heap m o.map i = .ok (a, m')) :
    RunningInv heap₀ m₀ H last objs l e heap m' (o.slot r :: called) := by
  rw [h.runtime_relocations_eq hinv ho hi] at hcall
  cases hcall
  refine ⟨hinv.list, hinv.keeps, ?_⟩
  have hslot : o.slot r ∈ words objs :=
    List.mem_flatMap.mpr ⟨o, ho, Linked.slot_mem_plt (List.mem_of_getElem? hi)⟩
  have htable := hinv.table.putWord rfl (by decide) h.apart hslot (addr o r)
  have hsame : (Function.update (fun w => if w ∈ called then e w else l w) (o.slot r) (addr o r)) =
      fun w => if w ∈ o.slot r :: called then e w else l w := by
    funext w
    by_cases hw : w = o.slot r
    · subst hw
      rw [Function.update_self, if_pos List.mem_cons_self, he]
    · rw [Function.update_of_ne hw]
      simp [hw]
  exact hsame ▸ htable

theorem inv_append (hinv : RunningInv heap₀ m₀ H last objs l e heap m called) (node : LinkMap) {tail : Nat}
    {m' : Memory 64} (htail : follow LinkMap.l_next heap heap.length H = .ok tail) (hmap : m.Sub m') :
    RunningInv heap₀ m₀ H last objs l e (heap.append_node tail node) m' called := by
  obtain ⟨more, hlist⟩ := hinv.list
  refine ⟨⟨more ++ [heap.length], ?_⟩, hinv.keeps.trans (heap.keeps_append_node tail node), hinv.table.grow hmap⟩
  rw [← List.append_assoc]
  exact hlist.append_node_follow node htail

theorem inv (h : Linking heap₀ m₀ H last objs addr) (he : ∀ o ∈ objs, ∀ r ∈ o.lib.plt_entries, e (o.slot r) = addr o r)
    {m₁ : Memory 64} (hstart : Memory.Table (words objs) m₀ m₁ l) (hrun : Running H objs heap₀ m₁ heap m called) :
    RunningInv heap₀ m₀ H last objs l e heap m called := by
  induction hrun with
  | started => exact ⟨⟨[], by simpa using h.list⟩, Heap.Keeps.refl heap₀, by simpa using hstart⟩
  | call _ ho hi hcall ih => exact h.inv_call ih ho hi (he _ ho _ (List.mem_of_getElem? hi)) hcall
  | append _ node htail hmap ih => exact inv_append ih node htail hmap

section Tables

variable (h : Linking heap₀ m₀ H last objs addr)

include h in
/-- What was written is in the table. -/
theorem assign_writes {x : elf_addr × elf_addr} (hx : x ∈ writes objs content addr lazy) :
    assign content (writes objs content addr lazy) x.1 = x.2 :=
  assign_of_nodup (writes_sublist.nodup (h.apart.nodup (by decide))) hx

include h in
theorem assign_eager {o : Linked sys} (ho : o ∈ objs) {r : Rela} (hr : r ∈ o.lib.plt_entries) :
    assign content (writes objs content addr false) (o.slot r) = addr o r :=
  h.assign_writes (x := (o.slot r, addr o r))
    (List.mem_flatMap.mpr ⟨o, ho, List.mem_append_left _ (List.mem_map.mpr ⟨r, hr, rfl⟩)⟩)

include h in
theorem assign_lazy {o : Linked sys} (ho : o ∈ objs) {r : Rela} (hr : r ∈ o.lib.plt_entries) :
    assign content (writes objs content addr true) (o.slot r) = content (o.slot r) + o.node.l_addr :=
  h.assign_writes (x := (o.slot r, content (o.slot r) + o.node.l_addr))
    (List.mem_flatMap.mpr ⟨o, ho, List.mem_append_left _ (List.mem_append_right _ (List.mem_map.mpr ⟨r, hr, rfl⟩))⟩)

include h in
/-- Both ways of relocation leave the same words behind the entries of `.rela.dyn`. -/
theorem assign_dyn {o : Linked sys} (ho : o ∈ objs) {r : Rela} (hr : r ∈ o.lib.dyn_entries) (hbinds : r.Binds) :
    assign content (writes objs content addr lazy) (o.slot r) = word (addr o) o.node.l_addr r := by
  have hmem : r ∈ o.lib.dyn_entries.filter (·.Binds) := List.mem_filter.mpr ⟨hr, decide_eq_true hbinds⟩
  exact h.assign_writes (x := (o.slot r, word (addr o) o.node.l_addr r))
    (List.mem_flatMap.mpr ⟨o, ho, List.mem_append_right _ (List.mem_map.mpr ⟨r, hmem, rfl⟩)⟩)

include h in
theorem assign_eq_of_not_plt {w : elf_addr} (hw : w ∈ words objs) (hgot : w ∉ got_words objs) (hplt : w ∉ plt_words objs) :
    assign content (writes objs content addr false) w = assign content (writes objs content addr true) w := by
  obtain ⟨o, ho, hw⟩ := List.mem_flatMap.mp hw
  obtain hw | hw := List.mem_append.mp hw
  · exact absurd (List.mem_flatMap.mpr ⟨o, ho, hw⟩) hgot
  · obtain hw | hw := List.mem_append.mp hw
    · exact absurd (List.mem_flatMap.mpr ⟨o, ho, hw⟩) hplt
    · obtain ⟨r, hr, rfl⟩ := List.mem_map.mp hw
      obtain ⟨hr, hbinds⟩ := List.mem_filter.mp hr
      exact (h.assign_dyn ho hr (of_decide_eq_true hbinds)).trans (h.assign_dyn ho hr (of_decide_eq_true hbinds)).symm

end Tables

end Linking

/-- Start-up relocates all objects up to the last one in either mode. However a
program goes on from the lazy one, by PLT calls in any order and by appended objects,
every PLT call succeeds and returns the address that eager relocation stores, a word
that was not called is as lazy relocation left it, and the memory that eager
relocation leaves is there but for the words not called and the tables. -/
theorem relocate_loop_converges {H last : Nat} {objs : List (Linked sys)} {addr : Linked sys → Rela → elf_addr}
    (h : Linking heap m H last objs addr) :
    ∃ m_lazy m_eager,
      relocate_loop sys heap (some H) true heap.length H m = .ok (objs.map Linked.map, m_lazy) ∧
      relocate_loop sys heap (some H) false heap.length H m = .ok (objs.map Linked.map, m_eager) ∧
      ∀ heap' m' called, Running H objs heap m_lazy heap' m' called →
        (∀ o ∈ objs, ∀ (i : Nat) r, o.lib.plt_entries[i]? = some r →
          m_eager.loadWord 64 (o.slot r) = .ok (addr o r) ∧
          ∃ m'', runtime_relocations sys heap' m' o.map i = .ok (addr o r, m'')) ∧
        (∀ o ∈ objs, ∀ r ∈ o.lib.plt_entries, o.slot r ∉ called →
          ∃ c, m.loadWord 64 (o.slot r) = .ok c ∧ m'.loadWord 64 (o.slot r) = .ok (c + o.node.l_addr)) ∧
        (m_eager.hide (Memory.wordRegions 64 (got_words objs ++ (plt_words objs).filter (· ∉ called)))).Sub m' := by
  have hwr : ∀ w ∈ words objs, m.WritableRegion (Memory.wordRegion 64 w) := by
    intro w hw
    obtain ⟨o, ho, hw⟩ := List.mem_flatMap.mp hw
    exact (h.ready o ho).writable w hw
  obtain ⟨content, hcontent⟩ := Memory.Table.of_writable hwr
  have hslot : ∀ o ∈ objs, ∀ r ∈ o.lib.plt_entries, o.slot r ∈ words objs := fun o ho r hr =>
    List.mem_flatMap.mpr ⟨o, ho, Linked.slot_mem_plt hr⟩
  have hfuel : objs.length < heap.length := by
    have hle := h.list.chain.length_le
    rw [List.length_append, List.length_map, List.length_singleton] at hle
    omega
  have hloop : ∀ lazy, relocate_loop sys heap (some H) lazy heap.length H m =
      .ok (objs.map Linked.map, m.putWords (writes objs content addr lazy)) := fun lazy =>
    relocate_loop_writes h.list.chain hfuel h.ready h.apart fun o ho r hr => hcontent.words _ (hslot o ho r hr)
  have hmem : ∀ lazy, ∀ x ∈ writes objs content addr lazy, x.1 ∈ words objs := fun _ x hx =>
    writes_sublist.subset (List.mem_map_of_mem hx)
  have htable : ∀ lazy, Memory.Table (words objs) m (m.putWords (writes objs content addr lazy))
      (assign content (writes objs content addr lazy)) := fun lazy =>
    hcontent.putWords rfl (by decide) h.apart (hmem lazy)
  refine ⟨_, _, hloop true, hloop false, fun heap' m' called hrun => ?_⟩
  have heager : ∀ o ∈ objs, ∀ r ∈ o.lib.plt_entries,
      assign content (writes objs content addr false) (o.slot r) = addr o r := fun o ho r hr => h.assign_eager ho hr
  have hinv := h.inv heager (htable true) hrun
  refine ⟨?_, ?_, ?_⟩
  · intro o ho i r hi
    have hr := List.mem_of_getElem? hi
    refine ⟨?_, _, h.runtime_relocations_eq hinv ho hi⟩
    rw [(htable false).words _ (hslot o ho r hr), h.assign_eager ho hr]
  · intro o ho r hr hnot
    refine ⟨_, hcontent.words _ (hslot o ho r hr), ?_⟩
    rw [hinv.table.words _ (hslot o ho r hr), if_neg hnot, h.assign_lazy ho hr]
  · refine (hcontent.putWords_sub rfl (by decide) h.apart (hmem false) hinv.table ?_).trans (Memory.hide_sub _ _)
    intro w hw hhidden
    obtain ⟨hgot, hfilter⟩ := not_or.mp (List.mem_append.not.mp hhidden)
    by_cases hcalled : w ∈ called
    · rw [if_pos hcalled]
    · rw [if_neg hcalled]
      refine h.assign_eq_of_not_plt hw hgot fun hplt => hfilter ?_
      exact List.mem_filter.mpr ⟨hplt, decide_eq_true hcalled⟩

/-- The definer of `f`, the caller behind it, and a last object. -/
def linked_heap : Heap :=
  [⟨0x2000, .lit "b.so", none, some 1, none⟩, ⟨0x1000, .lit "a.so", none, some 2, some 0⟩,
    ⟨0, .lit "linux-vdso.so.1", none, none, some 1⟩]

/-- What relocation reads of the two files. -/
theorem linked_read :
    (get_elf_ehdr caller_sys (.lit "b.so") = .ok (Ehdr.decode definer.file.content) ∧
      get_section caller_sys (Ehdr.decode definer.file.content) (.lit "b.so") (.lit ".rela.plt") = .ok none ∧
      get_section_size caller_sys (Ehdr.decode definer.file.content) (.lit "b.so") (.lit ".rela.plt") = .ok 0 ∧
      get_section caller_sys (Ehdr.decode definer.file.content) (.lit "b.so") (.lit ".rela.dyn") = .ok none ∧
      get_section_size caller_sys (Ehdr.decode definer.file.content) (.lit "b.so") (.lit ".rela.dyn") = .ok 0 ∧
      get_got_plt caller_sys (Ehdr.decode definer.file.content) ⟨0, .lit "b.so", none, none, none⟩ = .ok none) ∧
    get_section_size caller_sys (Ehdr.decode caller_content) (.lit "a.so") (.lit ".rela.plt") = .ok 1 ∧
    get_section caller_sys (Ehdr.decode caller_content) (.lit "a.so") (.lit ".rela.dyn") = .ok none ∧
    get_section_size caller_sys (Ehdr.decode caller_content) (.lit "a.so") (.lit ".rela.dyn") = .ok 0 ∧
    get_got_plt caller_sys (Ehdr.decode caller_content) ⟨0, .lit "a.so", none, none, none⟩ = .ok (some 0x3000) := by
  decide +kernel

def linked_definer : Linked caller_sys where
  map := 0
  node := ⟨0x2000, .lit "b.so", none, some 1, none⟩
  lib :=
    { elf := Ehdr.decode definer.file.content
      plt := none
      dyn := none
      got_plt := none
      ehdr := linked_read.1.1
      rela_plt := linked_read.1.2.1
      plt_count := linked_read.1.2.2.1
      rela_dyn := linked_read.1.2.2.2.1
      dyn_count := linked_read.1.2.2.2.2.1
      got := linked_read.1.2.2.2.2.2 }

def linked_caller : Linked caller_sys where
  map := 1
  node := ⟨0x1000, .lit "a.so", none, some 2, some 0⟩
  lib :=
    { elf := caller.elf
      plt := some caller.buf
      dyn := none
      got_plt := some 0x3000
      ehdr := caller.ehdr
      rela_plt := caller.rela_plt
      plt_count := by
        have hrela : relas caller.buf = _ := caller_rela
        rw [Option.getD_some, hrela]
        exact linked_read.2.1
      rela_dyn := linked_read.2.2.1
      dyn_count := linked_read.2.2.2.1
      got := linked_read.2.2.2.2 }

theorem linked_caller_entries : linked_caller.lib.plt_entries = [⟨0x3018, 1#32 ++ R_X86_64_JUMP_SLOT, 0⟩] := caller_rela

theorem linked_caller_words : linked_caller.words = [0x4008, 0x4010, 0x4018] := by
  rw [Linked.words, linked_caller_entries]
  rfl

theorem linked_words : words [linked_definer, linked_caller] = [0x4008, 0x4010, 0x4018] := by
  rw [words, List.flatMap_cons, List.flatMap_cons, linked_caller_words]
  rfl

theorem linked_apart : Memory.Apart (n := 64) 64 [0x4008, 0x4010, 0x4018] := by
  refine List.pairwise_cons.mpr ⟨?_, List.pairwise_pair.mpr (Region.disjoint_iff_clear.mpr (by decide))⟩
  intro w hw
  obtain rfl | rfl := List.mem_pair.mp hw <;> exact Region.disjoint_iff_clear.mpr (by decide)

theorem linked_writable : ∀ w ∈ ([0x4008, 0x4010, 0x4018] : List elf_addr),
    caller_memory.WritableRegion (Memory.wordRegion 64 w) := by
  refine List.forall_mem_cons.mpr ⟨by decide +kernel, List.forall_mem_cons.mpr ⟨by decide +kernel, ?_⟩⟩
  exact List.forall_mem_singleton.mpr (by decide +kernel)

/-- The name of the entry's symbol, and what is found for it. -/
theorem linked_finds :
    name_from_dynsim_index caller_sys (Ehdr.decode caller_content) (.lit "a.so") 1 = .ok (.lit "f") ∧
    link_map_lookup caller_sys linked_heap (caller_memory.hide (Memory.wordRegions 64 [0x4008, 0x4010, 0x4018])) (some 0)
      (.lit "f") = .ok 0x2040 := by
  decide +kernel

theorem linked_caller_ready : linked_caller.Ready linked_heap caller_memory (some 0)
    (Memory.wordRegions 64 [0x4008, 0x4010, 0x4018]) (fun _ => 0x2040) where
  node := rfl
  jump_slots r hr := by
    rw [linked_caller_entries, List.mem_singleton] at hr
    rw [hr]
    decide
  not_copy := by rintro r ⟨⟩
  got _ := rfl
  apart := linked_caller_words ▸ linked_apart
  writable := linked_caller_words ▸ linked_writable
  finds r hr _ := by
    obtain hr | hr := List.mem_append.mp hr
    · rw [linked_caller_entries, List.mem_singleton] at hr
      subst hr
      exact ⟨.lit "f", linked_finds⟩
    · cases hr
  hidden w hw := List.mem_map_of_mem (linked_caller_words ▸ hw)

theorem linked_definer_ready : linked_definer.Ready linked_heap caller_memory (some 0)
    (Memory.wordRegions 64 [0x4008, 0x4010, 0x4018]) (fun _ => 0x2040) where
  node := rfl
  jump_slots := by rintro r ⟨⟩
  not_copy := by rintro r ⟨⟩
  got hne := absurd rfl hne
  apart := List.Pairwise.nil
  writable := by rintro w ⟨⟩
  finds := by rintro r ⟨⟩
  hidden := by rintro w ⟨⟩

theorem linked : Linking linked_heap caller_memory 0 2 [linked_definer, linked_caller] fun _ _ => 0x2040 where
  list := ⟨rfl, _, rfl, rfl, rfl, _, rfl, rfl, rfl, _, rfl, rfl, rfl⟩
  apart := linked_words ▸ linked_apart
  ready o ho := by
    rw [linked_words]
    obtain rfl | rfl := List.mem_pair.mp ho
    · exact linked_definer_ready
    · exact linked_caller_ready

/-- After the first call of the only PLT entry, the memory is what eager relocation
leaves, but for the two words of the table. -/
theorem relocate_loop_converges_caller : ∃ m_lazy m_eager m',
    relocate_loop caller_sys linked_heap (some 0) true 3 0 caller_memory = .ok ([0, 1], m_lazy) ∧
    relocate_loop caller_sys linked_heap (some 0) false 3 0 caller_memory = .ok ([0, 1], m_eager) ∧
    runtime_relocations caller_sys linked_heap m_lazy 1 0 = .ok (0x2040, m') ∧
    (m_eager.hide (Memory.wordRegions 64 [0x4008, 0x4010])).Sub m' := by
  obtain ⟨m_lazy, m_eager, hlazy, heager, hruns⟩ := relocate_loop_converges linked
  have hentry : linked_caller.lib.plt_entries[0]? = some ⟨0x3018, 1#32 ++ R_X86_64_JUMP_SLOT, 0⟩ := by
    rw [linked_caller_entries]
    rfl
  obtain ⟨-, m', hcall⟩ := (hruns _ _ _ .started).1 linked_caller (by simp) 0 _ hentry
  have hsub := (hruns _ _ _ (.call .started (by simp) hentry hcall)).2.2
  have hhidden : got_words [linked_definer, linked_caller] ++
      (plt_words [linked_definer, linked_caller]).filter
        (· ∉ [linked_caller.slot ⟨0x3018, 1#32 ++ R_X86_64_JUMP_SLOT, 0⟩]) = [0x4008, 0x4010] := by
    rw [plt_words, List.flatMap_cons, List.flatMap_cons, linked_caller_entries]
    rfl
  rw [hhidden] at hsub
  exact ⟨m_lazy, m_eager, m', hlazy, heager, hcall, hsub⟩

end ldso
