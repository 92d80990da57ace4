import LdSo.Lib.Memory.Table
import LdSo.Relocations.Lazy
import LdSo.Relocations.Library
import LdSo.Relocations.Relative

open cmodel

namespace ldso

open elf

/-- The entries that `relocation_lookup` writes a word for. -/
def elf.Rela.Binds (rela : Rela) : Prop := rela.Symbolic ∨ rela.type = R_X86_64_RELATIVE

instance (rela : Rela) : Decidable rela.Binds := inferInstanceAs (Decidable (_ ∨ _))

namespace relocations

open elf_manipulation symbol_resolution

variable {sys : System} {heap : Heap} {m : Memory 64} {elf : Ehdr} {next : LinkMap} {map : Option Nat}
  {hidden : List (Region 64)} {addr : Rela → elf_addr}

/-- The words that the entries of an array bind. -/
def bound_slots (l_addr : elf_addr) (rela : List Rela) : List elf_addr :=
  (rela.filter (·.Binds)).map (slot · l_addr)

/-- What `relocation_lookup` needs of an array to come through it: no COPY entry, and
for every entry with a word that the word may be written and the symbol is found,
whatever the hidden words hold. -/
structure Bindable (sys : System) (heap : Heap) (m : Memory 64) (elf : Ehdr) (next : LinkMap) (map : Option Nat)
    (hidden : List (Region 64)) (addr : Rela → elf_addr) (rela : List Rela) : Prop where
  not_copy : ∀ r ∈ rela, r.type ≠ R_X86_64_COPY
  finds : ∀ r ∈ rela, r.Binds → Finds sys heap (m.hide hidden) elf next map r (addr r)
  hidden : ∀ r ∈ rela, r.Binds → Memory.wordRegion 64 (slot r next.l_addr) ∈ hidden
  writable : ∀ r ∈ rela, r.Binds → m.WritableRegion (Memory.wordRegion 64 (slot r next.l_addr))

namespace Bindable

variable {rela : List Rela}

/-- Writing a hidden word keeps it so. -/
theorem putWord (h : Bindable sys heap m elf next map hidden addr rela) {a : elf_addr}
    (ha : Memory.wordRegion 64 a ∈ hidden) (v : elf_addr) :
    Bindable sys heap (m.putWord a v) elf next map hidden addr rela where
  not_copy := h.not_copy
  finds := by
    rw [Memory.hide_putWord ha]
    exact h.finds
  hidden := h.hidden
  writable r hr hbinds := Memory.writableRegion_putWord.mpr (h.writable r hr hbinds)

theorem putWords {ws : List (elf_addr × elf_addr)} (h : Bindable sys heap m elf next map hidden addr rela)
    (hws : ∀ x ∈ ws, Memory.wordRegion 64 x.1 ∈ hidden) :
    Bindable sys heap (m.putWords ws) elf next map hidden addr rela := by
  induction ws generalizing m with
  | nil => exact h
  | cons x ws ih => exact ih (h.putWord (hws x (by simp)) x.2) fun y hy => hws y (by simp [hy])

theorem tail {r : Rela} {rest : List Rela} (h : Bindable sys heap m elf next map hidden addr (r :: rest)) :
    Bindable sys heap m elf next map hidden addr rest where
  not_copy s hs := h.not_copy s (List.mem_cons_of_mem _ hs)
  finds s hs := h.finds s (List.mem_cons_of_mem _ hs)
  hidden s hs := h.hidden s (List.mem_cons_of_mem _ hs)
  writable s hs := h.writable s (List.mem_cons_of_mem _ hs)

end Bindable

theorem relocation_lookup_loop_binding {rela : List Rela}
    (h : Bindable sys heap m elf next map hidden addr rela) :
    relocation_lookup_loop sys heap elf next map rela.length rela m =
      .ok (m.putWords (words addr next.l_addr (rela.filter (·.Binds)))) := by
  induction rela generalizing m with
  | nil => rfl
  | cons r rest ih =>
    have hr : r ∈ r :: rest := List.mem_cons_self
    by_cases hbinds : r.Binds
    · have hfinds := (h.finds r hr hbinds).mono (Memory.hide_sub m hidden)
      rw [List.length_cons, relocation_lookup_loop_found hbinds (fun _ => hfinds) (fun _ => ⟨_, hfinds⟩)
        (h.writable r hr hbinds), ih (h.tail.putWord (h.hidden r hr hbinds) _),
        List.filter_cons_of_pos (by simpa using hbinds)]
      rfl
    · obtain ⟨hsym, hrel⟩ := not_or.mp hbinds
      rw [List.length_cons, relocation_lookup_loop_other hsym hrel (h.not_copy r hr), ih h.tail,
        List.filter_cons_of_neg (by simpa using hbinds)]

theorem relocation_lookup_binding {rela : List Rela} (hehdr : get_elf_ehdr sys next.l_name = .ok elf)
    (h : Bindable sys heap m elf next map hidden addr rela) :
    relocation_lookup sys heap m rela rela.length next map =
      .ok (m.putWords (words addr next.l_addr (rela.filter (·.Binds)))) := by
  unfold relocation_lookup
  rw [hehdr, Outcome.ok_bind, Int.toNat_natCast, relocation_lookup_loop_binding h]

/-- An object on the link map with what relocation reads of its file. -/
structure Linked (sys : System) where
  map : Nat
  node : LinkMap
  lib : RelaFile sys node.l_name

namespace Linked

def slot (o : Linked sys) (r : Rela) : elf_addr := relocations.slot r o.node.l_addr

/-- The second and third word of the table, where there is one. -/
def got_words (o : Linked sys) : List elf_addr :=
  o.lib.got_plt.elim [] fun got_plt => [got_plt + o.node.l_addr + 8#64, got_plt + o.node.l_addr + 16#64]

/-- The words that relocation may write. -/
def words (o : Linked sys) : List elf_addr :=
  o.got_words ++ (o.lib.plt_entries.map o.slot ++ bound_slots o.node.l_addr o.lib.dyn_entries)

/-- What lazy relocation writes to the table. -/
def got_writes (o : Linked sys) : List (elf_addr × elf_addr) :=
  if o.lib.plt.isSome then
    o.lib.got_plt.elim [] fun got_plt =>
      [(got_plt + o.node.l_addr + 8#64, sys.node o.map), (got_plt + o.node.l_addr + 16#64, sys.reloc)]
  else []

/-- What the pass over `.rela.plt` writes: `l_addr` is added to what the words hold,
or the symbols' addresses replace it. -/
def plt_writes (o : Linked sys) (content : elf_addr → elf_addr) (addr : Rela → elf_addr) (lazy : Bool) :
    List (elf_addr × elf_addr) :=
  if lazy then o.got_writes ++ o.lib.plt_entries.map fun r => (o.slot r, content (o.slot r) + o.node.l_addr)
  else o.lib.plt_entries.map fun r => (o.slot r, addr r)

/-- What relocation writes. -/
def writes (o : Linked sys) (content : elf_addr → elf_addr) (addr : Rela → elf_addr) (lazy : Bool) :
    List (elf_addr × elf_addr) :=
  o.plt_writes content addr lazy ++ relocations.words addr o.node.l_addr (o.lib.dyn_entries.filter (·.Binds))

variable {o : Linked sys} {content : elf_addr → elf_addr} {lazy : Bool}

theorem got_writes_sublist : (o.got_writes.map Prod.fst).Sublist o.got_words := by
  unfold got_writes got_words
  split
  · cases o.lib.got_plt with
    | none => exact List.Sublist.refl _
    | some got_plt => exact List.Sublist.refl _
  · exact List.nil_sublist _

theorem plt_writes_sublist :
    ((o.plt_writes content addr lazy).map Prod.fst).Sublist (o.got_words ++ o.lib.plt_entries.map o.slot) := by
  cases lazy with
  | true =>
    have hslots : (o.lib.plt_entries.map fun r => (o.slot r, content (o.slot r) + o.node.l_addr)).map Prod.fst =
        o.lib.plt_entries.map o.slot := List.map_map
    rw [plt_writes, if_pos rfl, List.map_append, hslots]
    exact got_writes_sublist.append (List.Sublist.refl _)
  | false =>
    have hslots : (o.lib.plt_entries.map fun r => (o.slot r, addr r)).map Prod.fst = o.lib.plt_entries.map o.slot :=
      List.map_map
    rw [plt_writes, if_neg Bool.false_ne_true, hslots]
    exact List.sublist_append_right _ _

/-- It writes its words only, and none of them twice. -/
theorem writes_sublist : ((o.writes content addr lazy).map Prod.fst).Sublist o.words := by
  rw [writes, words, List.map_append, ← List.append_assoc, words_fst]
  exact plt_writes_sublist.append (List.Sublist.refl _)

theorem writes_mem {x : elf_addr × elf_addr} (hx : x ∈ o.writes content addr lazy) : x.1 ∈ o.words :=
  writes_sublist.subset (List.mem_map_of_mem hx)

/-- What relocation of the object needs: a table where it has PLT entries, words
that do not meet and may be written, and symbols that are found whatever the hidden
words hold, its own among them. -/
structure Ready (o : Linked sys) (heap : Heap) (m : Memory 64) (map : Option Nat) (hidden : List (Region 64))
    (addr : Rela → elf_addr) : Prop where
  node : heap[o.map]? = some o.node
  jump_slots : ∀ r ∈ o.lib.plt_entries, r.type = R_X86_64_JUMP_SLOT
  not_copy : ∀ r ∈ o.lib.dyn_entries, r.type ≠ R_X86_64_COPY
  got : o.lib.plt_entries ≠ [] → o.lib.got_plt.isSome = true
  apart : Memory.Apart 64 o.words
  writable : ∀ w ∈ o.words, m.WritableRegion (Memory.wordRegion 64 w)
  finds : ∀ r ∈ o.lib.plt_entries ++ o.lib.dyn_entries, r.Binds →
    Finds sys heap (m.hide hidden) o.lib.elf o.node map r (addr r)
  hidden : ∀ w ∈ o.words, Memory.wordRegion 64 w ∈ hidden

theorem slot_mem_plt {r : Rela} (hr : r ∈ o.lib.plt_entries) : o.slot r ∈ o.words :=
  List.mem_append_right _ (List.mem_append_left _ (List.mem_map_of_mem hr))

theorem slot_mem_dyn {r : Rela} (hr : r ∈ o.lib.dyn_entries) (hbinds : r.Binds) : o.slot r ∈ o.words :=
  List.mem_append_right _ (List.mem_append_right _
    (List.mem_map_of_mem (List.mem_filter.mpr ⟨hr, by simpa using hbinds⟩)))

namespace Ready

/-- Writing hidden words keeps the object ready. -/
theorem putWords {ws : List (elf_addr × elf_addr)} (h : o.Ready heap m map hidden addr)
    (hws : ∀ x ∈ ws, Memory.wordRegion 64 x.1 ∈ hidden) : o.Ready heap (m.putWords ws) map hidden addr :=
  { h with
    writable := fun w hw => Memory.writableRegion_putWords.mpr (h.writable w hw)
    finds := by
      rw [Memory.hide_putWords hws]
      exact h.finds }

theorem bindable_plt (h : o.Ready heap m map hidden addr) :
    Bindable sys heap m o.lib.elf o.node map hidden addr o.lib.plt_entries where
  not_copy r hr := by
    rw [h.jump_slots r hr]
    decide
  finds r hr := h.finds r (List.mem_append_left _ hr)
  hidden _ hr _ := h.hidden _ (slot_mem_plt hr)
  writable _ hr _ := h.writable _ (slot_mem_plt hr)

theorem bindable_dyn (h : o.Ready heap m map hidden addr) :
    Bindable sys heap m o.lib.elf o.node map hidden addr o.lib.dyn_entries where
  not_copy := h.not_copy
  finds r hr := h.finds r (List.mem_append_right _ hr)
  hidden _ hr hbinds := h.hidden _ (slot_mem_dyn hr hbinds)
  writable _ hr hbinds := h.writable _ (slot_mem_dyn hr hbinds)

/-- All PLT entries are bound, each to its symbol's address. -/
theorem words_plt (h : o.Ready heap m map hidden addr) :
    relocations.words addr o.node.l_addr (o.lib.plt_entries.filter (·.Binds)) =
      o.lib.plt_entries.map fun r => (o.slot r, addr r) := by
  have hsym : ∀ r ∈ o.lib.plt_entries, r.Symbolic := fun r hr => Or.inl (h.jump_slots r hr)
  have hbinds : ∀ r ∈ o.lib.plt_entries, decide r.Binds = true := fun r hr => decide_eq_true (Or.inl (hsym r hr))
  rw [List.filter_eq_self.mpr hbinds]
  refine List.map_congr_left fun r hr => ?_
  rw [word_of_symbolic (hsym r hr)]
  rfl

/-- The words of the table do not meet those of the PLT. -/
theorem table_apart (h : o.Ready heap m map hidden addr) {w : elf_addr} (hw : w ∈ o.got_words) {r : Rela}
    (hr : r ∈ o.lib.plt_entries) : (Memory.wordRegion 64 w).Disjoint (Memory.wordRegion 64 (o.slot r)) :=
  (List.pairwise_append.mp h.apart).2.2 w hw _ (List.mem_append_left _ (List.mem_map_of_mem hr))

theorem slots_apart (h : o.Ready heap m map hidden addr) : Memory.Apart 64 (o.lib.plt_entries.map o.slot) :=
  (List.pairwise_append.mp (List.pairwise_append.mp h.apart).2.1).1

/-- Lazy relocation of the PLT, where there is one. -/
theorem relocation_lazy_writes (h : o.Ready heap m map hidden addr) (hplt : o.lib.plt.isSome = true)
    (hcontent : ∀ r ∈ o.lib.plt_entries, m.loadWord 64 (o.slot r) = .ok (content (o.slot r))) :
    relocation_lazy sys heap m o.map o.lib.plt_entries o.lib.plt_entries.length =
      .ok (m.putWords (o.plt_writes content addr true)) := by
  unfold relocation_lazy
  rw [h.node, Outcome.ofOption_some, Outcome.ok_bind, o.lib.ehdr, Outcome.ok_bind, get_got_plt_at o.lib.got,
    Outcome.ok_bind]
  cases hgot : o.lib.got_plt with
  | none =>
    have hnil : o.lib.plt_entries = [] := by
      by_contra hne
      have hsome := h.got hne
      rw [hgot] at hsome
      cases hsome
    have hwrites : o.plt_writes content addr true = [] := by
      rw [plt_writes, if_pos rfl, got_writes, hgot, hnil]
      simp
    rw [hwrites]
    rfl
  | some got_plt =>
    have hwords : o.got_words = [got_plt + o.node.l_addr + 8#64, got_plt + o.node.l_addr + 16#64] := by
      rw [got_words, hgot]
      rfl
    have hwrites : o.got_writes =
        [(got_plt + o.node.l_addr + 8#64, sys.node o.map), (got_plt + o.node.l_addr + 16#64, sys.reloc)] := by
      rw [got_writes, if_pos hplt, hgot]
      rfl
    have hone := h.writable (got_plt + o.node.l_addr + 8#64) (List.mem_append_left _ (by simp [hwords]))
    have htwo := h.writable (got_plt + o.node.l_addr + 16#64) (List.mem_append_left _ (by simp [hwords]))
    -- the words of the PLT are read after the table is written
    have hread : ∀ r ∈ o.lib.plt_entries, ((m.putWord (got_plt + o.node.l_addr + 8#64) (sys.node o.map)).putWord
        (got_plt + o.node.l_addr + 16#64) sys.reloc).loadWord 64 (relocations.slot r o.node.l_addr) =
          .ok (content (o.slot r)) := by
      intro r hr
      have hhigh : (Memory.wordRegion 64 (got_plt + o.node.l_addr + 16#64)).Disjoint
          (Memory.wordRegion 64 (relocations.slot r o.node.l_addr)) := h.table_apart (by simp [hwords]) hr
      have hlow : (Memory.wordRegion 64 (got_plt + o.node.l_addr + 8#64)).Disjoint
          (Memory.wordRegion 64 (relocations.slot r o.node.l_addr)) := h.table_apart (by simp [hwords]) hr
      rw [Memory.loadWord_putWord_of_disjoint hhigh, Memory.loadWord_putWord_of_disjoint hlow]
      exact hcontent r hr
    have hloop := relocation_lazy_loop_eq hread (fun r hr => by
      rw [Memory.writableRegion_putWord, Memory.writableRegion_putWord]
      exact h.writable _ (slot_mem_plt hr)) h.slots_apart
    simp only [Option.map_some, Memory.storeWord_eq_ok _ hone, Outcome.ok_bind, Int.toNat_natCast,
      Memory.storeWord_eq_ok sys.reloc (Memory.writableRegion_putWord.mpr htwo), hloop]
    rw [plt_writes, if_pos rfl, hwrites]
    rfl

theorem plt_pass (h : o.Ready heap m map hidden addr)
    (hcontent : ∀ r ∈ o.lib.plt_entries, m.loadWord 64 (o.slot r) = .ok (content (o.slot r))) :
    (o.lib.plt.elim (.ok m) fun _ =>
        if lazy then relocation_lazy sys heap m o.map o.lib.plt_entries o.lib.plt_entries.length
        else relocation_lookup sys heap m o.lib.plt_entries o.lib.plt_entries.length o.node map) =
      .ok (m.putWords (o.plt_writes content addr lazy)) := by
  cases hplt : o.lib.plt with
  | none =>
    have hnil : o.lib.plt_entries = [] := by
      rw [RelaFile.plt_entries, hplt]
      rfl
    have hwrites : o.plt_writes content addr lazy = [] := by
      rw [plt_writes, got_writes, hplt, hnil]
      simp
    rw [hwrites]
    rfl
  | some buf =>
    rw [Option.elim_some]
    cases lazy with
    | true => exact h.relocation_lazy_writes (by rw [hplt]; rfl) hcontent
    | false =>
      rw [if_neg Bool.false_ne_true, relocation_lookup_binding o.lib.ehdr h.bindable_plt, h.words_plt]
      rfl

/-- Relocation of the object writes its words, and each of them once. -/
theorem resolve_relocations_writes (h : o.Ready heap m map hidden addr)
    (hcontent : ∀ r ∈ o.lib.plt_entries, m.loadWord 64 (o.slot r) = .ok (content (o.slot r))) :
    resolve_relocations sys heap m o.map map lazy = .ok (m.putWords (o.writes content addr lazy)) := by
  have hhidden : ∀ x ∈ o.plt_writes content addr lazy, Memory.wordRegion 64 x.1 ∈ hidden := fun x hx =>
    h.hidden _ (writes_mem (List.mem_append_left _ hx))
  rw [o.lib.resolve_relocations_eq h.node, h.plt_pass hcontent, Outcome.ok_bind,
    relocation_lookup_binding o.lib.ehdr (h.bindable_dyn.putWords hhidden)]
  unfold writes Memory.putWords
  rw [List.foldl_append]

end Ready

end Linked

end relocations

end ldso
