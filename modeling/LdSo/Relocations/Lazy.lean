import LdSo.Relocations.Lookup
import LdSo.SymbolResolution.Scope

open cmodel

namespace ldso.relocations

open elf elf_manipulation symbol_resolution

variable {sys : System} {heap : Heap} {m : Memory 64}

/-- An object whose calls are bound lazily: its node, its file's header and
`.rela.plt`, which holds JUMP_SLOT entries only. -/
structure LazyObject (sys : System) where
  map : Nat
  node : LinkMap
  elf : Ehdr
  buf : List Byte
  ehdr : get_elf_ehdr sys node.l_name = .ok elf
  rela_plt : get_section sys elf node.l_name (.lit ".rela.plt") = .ok (some buf)
  jump_slots : ∀ r ∈ relas buf, r.type = R_X86_64_JUMP_SLOT

namespace LazyObject

def rela (o : LazyObject sys) : List Rela := relas o.buf

/-- The word that the PLT entry of `r` jumps through. -/
def slot (o : LazyObject sys) (r : Rela) : elf_addr := relocations.slot r o.node.l_addr

/-- The words that binding the object's calls may write. -/
def slots (o : LazyObject sys) : List elf_addr := o.rela.map o.slot

theorem symbolic {o : LazyObject sys} {r : Rela} (hr : r ∈ o.rela) : r.Symbolic := Or.inl (o.jump_slots r hr)

theorem slots_eq (o : LazyObject sys) : relocations.slots o.node.l_addr o.rela = o.slots := by
  unfold relocations.slots slots
  rw [List.filter_eq_self.mpr fun r hr => by simpa using symbolic hr]
  rfl

end LazyObject

/-- Lazy relocation of an array whose slots do not meet adds `l_addr` to each. -/
theorem relocation_lazy_loop_eq {l_addr : elf_addr} {content : Rela → elf_addr} {rela : List Rela}
    (hcontent : ∀ r ∈ rela, m.loadWord 64 (slot r l_addr) = .ok (content r))
    (hwr : ∀ r ∈ rela, m.WritableRegion (Memory.wordRegion 64 (slot r l_addr)))
    (hapart : Memory.Apart 64 (rela.map (slot · l_addr))) :
    relocation_lazy_loop l_addr rela.length rela m =
      .ok (m.putWords (rela.map fun r => (slot r l_addr, content r + l_addr))) := by
  induction rela generalizing m with
  | nil => rfl
  | cons r rest ih =>
    obtain ⟨hhead, htail⟩ := List.pairwise_cons.mp hapart
    rw [List.length_cons, relocation_lazy_loop, hcontent r (by simp), Outcome.ok_bind,
      Memory.storeWord_eq_ok _ (hwr r (by simp)), Outcome.ok_bind]
    refine (ih ?_ ?_ htail).trans rfl
    · intro s hs
      rw [Memory.loadWord_putWord_of_disjoint (hhead _ (List.mem_map_of_mem hs)), hcontent s (by simp [hs])]
    · intro s hs
      exact Memory.writableRegion_putWord.mpr (hwr s (by simp [hs]))

/-- The words that binding `o` and calling the other objects may write:
`got_plt[1]`, `got_plt[2]` and the slots. -/
def lazy_words (o : LazyObject sys) (others : List (LazyObject sys)) (got_plt : elf_addr) : List elf_addr :=
  [got_plt + 8#64, got_plt + 16#64] ++ (o :: others).flatMap LazyObject.slots

/-- A link map with head `H`, an object `o` on it with a `got_plt`, and other
such objects. The slots of `o` avoid each other, the `got_plt` words and the
slots of the other objects. Every symbol is found from `H`, at `addr`, whatever
the slots hold: no hash table that the lookup reads lies under a slot. The
link-time content of the slots of `o` is `content`. -/
structure LazySetup (heap : Heap) (m : Memory 64) (H : Nat) (ps : List Nat) (o : LazyObject sys)
    (others : List (LazyObject sys)) (got_plt : elf_addr) (addr : LazyObject sys → Rela → elf_addr)
    (content : Rela → elf_addr) : Prop where
  list : IsLinkMap heap (some H) (H :: ps)
  on_list : ∀ p ∈ o :: others, p.map ∈ H :: ps ∧ heap[p.map]? = some p.node
  got : get_got_plt sys o.elf o.node = .ok (some got_plt)
  got_writable : ∀ a ∈ [got_plt + 8#64, got_plt + 16#64], m.WritableRegion (Memory.wordRegion 64 a)
  finds : ∀ p ∈ o :: others, ∀ r ∈ p.rela, Finds sys heap
    (m.hide (Memory.wordRegions 64 (lazy_words o others got_plt))) p.elf p.node (some H) r (addr p r)
  writable : ∀ p ∈ o :: others, ∀ r ∈ p.rela, m.WritableRegion (Memory.wordRegion 64 (p.slot r))
  content : ∀ r ∈ o.rela, m.loadWord 64 (o.slot r) = .ok (content r)
  apart : Memory.Apart 64 o.slots
  avoids : ∀ a ∈ [got_plt + 8#64, got_plt + 16#64], ∀ r ∈ o.rela,
    (Memory.wordRegion 64 a).Disjoint (Memory.wordRegion 64 (o.slot r))
  others_apart : ∀ p ∈ others, ∀ r ∈ p.rela, ∀ s ∈ o.rela,
    (Memory.wordRegion 64 (p.slot r)).Disjoint (Memory.wordRegion 64 (o.slot s))

/-- The states that lazy binding can reach after `o` was relocated: PLT calls of
`o`, recorded by their indices, PLT calls of other objects, and objects that
are appended to the list together with the memory they occupy. -/
inductive LazyRun (H : Nat) (o : LazyObject sys) (others : List (LazyObject sys)) (heap₀ : Heap) (m₀ : Memory 64) :
    Heap → Memory 64 → List Nat → Prop where
  | relocated : LazyRun H o others heap₀ m₀ heap₀ m₀ []
  | call {heap m called} {i : Nat} {a m'} (run : LazyRun H o others heap₀ m₀ heap m called) (hi : i < o.rela.length)
      (hcall : runtime_relocations sys heap m o.map i = .ok (a, m')) :
      LazyRun H o others heap₀ m₀ heap m' (i :: called)
  | other {heap m called} {p : LazyObject sys} {i : Nat} {a m'} (run : LazyRun H o others heap₀ m₀ heap m called)
      (hp : p ∈ others) (hi : i < p.rela.length) (hcall : runtime_relocations sys heap m p.map i = .ok (a, m')) :
      LazyRun H o others heap₀ m₀ heap m' called
  | append {heap m called tail m'} (run : LazyRun H o others heap₀ m₀ heap m called) (node : LinkMap)
      (htail : follow LinkMap.l_next heap heap.length H = .ok tail) (hmap : m.Sub m') :
      LazyRun H o others heap₀ m₀ (heap.append_node tail node) m' called

section Run

variable {H : Nat} {ps : List Nat} {o : LazyObject sys} {others : List (LazyObject sys)} {got_plt : elf_addr}
  {addr : LazyObject sys → Rela → elf_addr} {content : Rela → elf_addr}

/-- What every reachable state keeps: the list only grew, nothing but the words
changed, and each slot of `o` is bound exactly when it was called. -/
structure LazyInv (heap₀ : Heap) (m₀ : Memory 64) (H : Nat) (ps : List Nat) (o : LazyObject sys)
    (others : List (LazyObject sys)) (got_plt : elf_addr) (addr : LazyObject sys → Rela → elf_addr)
    (content : Rela → elf_addr) (heap : Heap) (m : Memory 64) (called : List Nat) : Prop where
  list : ∃ more, IsLinkMap heap (some H) (H :: ps ++ more)
  keeps : heap₀.Keeps heap
  sub : (m₀.hide (Memory.wordRegions 64 (lazy_words o others got_plt))).Sub
    (m.hide (Memory.wordRegions 64 (lazy_words o others got_plt)))
  writable : ∀ p ∈ o :: others, ∀ r ∈ p.rela, m.WritableRegion (Memory.wordRegion 64 (p.slot r))
  value : ∀ i r, o.rela[i]? = some r →
    m.loadWord 64 (o.slot r) = .ok (if i ∈ called then addr o r else content r + o.node.l_addr)

theorem slot_mem_words {p : LazyObject sys} (hp : p ∈ o :: others) {r : Rela} (hr : r ∈ p.rela) :
    Memory.wordRegion 64 (p.slot r) ∈ Memory.wordRegions 64 (lazy_words o others got_plt) :=
  List.mem_map_of_mem (List.mem_append_right _ (List.mem_flatMap.mpr ⟨p, hp, List.mem_map_of_mem hr⟩))

theorem got_mem_words {a : elf_addr} (ha : a ∈ [got_plt + 8#64, got_plt + 16#64]) :
    Memory.wordRegion 64 a ∈ Memory.wordRegions 64 (lazy_words o others got_plt) :=
  List.mem_map_of_mem (List.mem_append_left _ ha)

/-- A PLT call in a state of the run binds its slot and returns the address. -/
theorem runtime_relocations_eq {m₀ m : Memory 64} {heap₀ heap : Heap} {called : List Nat}
    (hsetup : LazySetup heap₀ m₀ H ps o others got_plt addr content)
    (hinv : LazyInv heap₀ m₀ H ps o others got_plt addr content heap m called) {p : LazyObject sys}
    (hp : p ∈ o :: others) {i : Nat} {r : Rela} (hi : p.rela[i]? = some r) :
    runtime_relocations sys heap m p.map i = .ok (addr p r, m.putWord (p.slot r) (addr p r)) := by
  have hr : r ∈ p.rela := List.mem_of_getElem? hi
  obtain ⟨more, hlist⟩ := hinv.list
  obtain ⟨hmem, hnode⟩ := hsetup.on_list p hp
  obtain ⟨v, hv, hname, haddr⟩ := hinv.keeps p.map p.node hnode
  have hhead : follow LinkMap.l_prev heap heap.length p.map = .ok H :=
    Segment.follow_prev_of_mem hlist (List.mem_append_left _ hmem) hlist.chain.length_le
  obtain ⟨rela_name, hrela, hlookup⟩ := hsetup.finds p hp r hr
  have hgrown : link_map_lookup sys heap m (some H) rela_name = .ok (addr p r) :=
    link_map_lookup_grow hsetup.list.chain hlist.chain hinv.keeps (hinv.sub.trans (Memory.hide_sub _ _)) hlookup
  have hget : (relas p.buf)[i]? = some r := hi
  have hstore : m.storeWord (relocations.slot r p.node.l_addr) (addr p r) = .ok (m.putWord (p.slot r) (addr p r)) :=
    Memory.storeWord_eq_ok _ (hinv.writable p hp r hr)
  simp only [runtime_relocations, hhead, hv, Outcome.ok_bind, Outcome.ofOption_some, hname, haddr, p.ehdr, p.rela_plt,
    if_neg (show ¬ (i : Int) < 0 by omega), Int.toNat_natCast, hget, hrela, hgrown]
  rw [if_pos (link_map_lookup_ne_zero hgrown), hstore]
  rfl

/-- Lazy relocation of `o` stores the `got_plt` words and adds `l_addr` to each slot. -/
theorem relocation_lazy_eq {m : Memory 64} (hsetup : LazySetup heap m H ps o others got_plt addr content) :
    relocation_lazy sys heap m o.map o.rela o.rela.length =
      .ok (((m.putWord (got_plt + 8#64) (sys.node o.map)).putWord (got_plt + 16#64) sys.reloc).putWords
        (o.rela.map fun r => (o.slot r, content r + o.node.l_addr))) := by
  have hnode := (hsetup.on_list o (by simp)).2
  have hone := hsetup.got_writable (got_plt + 8#64) (by simp)
  have htwo := hsetup.got_writable (got_plt + 16#64) (by simp)
  have hcontent : ∀ r ∈ o.rela, ((m.putWord (got_plt + 8#64) (sys.node o.map)).putWord (got_plt + 16#64)
      sys.reloc).loadWord 64 (o.slot r) = .ok (content r) := by
    intro r hr
    rw [Memory.loadWord_putWord_of_disjoint (hsetup.avoids _ (by simp) r hr),
      Memory.loadWord_putWord_of_disjoint (hsetup.avoids _ (by simp) r hr), hsetup.content r hr]
  have hwr : ∀ r ∈ o.rela, ((m.putWord (got_plt + 8#64) (sys.node o.map)).putWord (got_plt + 16#64)
      sys.reloc).WritableRegion (Memory.wordRegion 64 (o.slot r)) := by
    intro r hr
    rw [Memory.writableRegion_putWord, Memory.writableRegion_putWord]
    exact hsetup.writable o (by simp) r hr
  have hloop := relocation_lazy_loop_eq hcontent hwr hsetup.apart
  unfold relocation_lazy
  rw [hnode, Outcome.ofOption_some, Outcome.ok_bind, o.ehdr, Outcome.ok_bind, hsetup.got, Outcome.ok_bind]
  simp only [Memory.storeWord_eq_ok _ hone, Outcome.ok_bind,
    Memory.storeWord_eq_ok sys.reloc (Memory.writableRegion_putWord.mpr htwo), Int.toNat_natCast, hloop]
  rfl

theorem lazyInv_relocated {m : Memory 64} (hsetup : LazySetup heap m H ps o others got_plt addr content)
    {m₀ : Memory 64} (hlazy : relocation_lazy sys heap m o.map o.rela o.rela.length = .ok m₀) :
    LazyInv heap m H ps o others got_plt addr content heap m₀ [] := by
  rw [relocation_lazy_eq hsetup] at hlazy
  cases hlazy
  have hwr : ∀ p ∈ o :: others, ∀ r ∈ p.rela, ((m.putWord (got_plt + 8#64) (sys.node o.map)).putWord
      (got_plt + 16#64) sys.reloc).WritableRegion (Memory.wordRegion 64 (p.slot r)) := by
    intro p hp r hr
    rw [Memory.writableRegion_putWord, Memory.writableRegion_putWord]
    exact hsetup.writable p hp r hr
  refine ⟨⟨[], by simpa using hsetup.list⟩, Heap.Keeps.refl heap, ?_, ?_, ?_⟩
  · rw [Memory.hide_putWords, Memory.hide_putWord (got_mem_words (by simp)),
      Memory.hide_putWord (got_mem_words (by simp))]
    · exact Memory.Sub.refl _
    · intro x hx
      obtain ⟨r, hr, rfl⟩ := List.mem_map.mp hx
      exact slot_mem_words List.mem_cons_self hr
  · intro p hp r hr
    exact Memory.writableRegion_putWords.mpr (hwr p hp r hr)
  · intro i r hi
    have hr := List.mem_of_getElem? hi
    have hapart : Memory.Apart 64 ((o.rela.map fun r => (o.slot r, content r + o.node.l_addr)).map Prod.fst) := by
      rw [List.map_map]
      exact hsetup.apart
    have hvalue := Memory.loadWord_putWords_mem rfl (by decide) hapart (fun x hx => by
      obtain ⟨s, hs, rfl⟩ := List.mem_map.mp hx
      exact hwr o (by simp) s hs) (List.mem_map_of_mem hr)
    exact hvalue

/-- A PLT call keeps the invariant. -/
theorem LazyInv.call {m₀ m : Memory 64} {heap₀ heap : Heap} {called : List Nat}
    (hsetup : LazySetup heap₀ m₀ H ps o others got_plt addr content)
    (hinv : LazyInv heap₀ m₀ H ps o others got_plt addr content heap m called) {i : Nat} {a : elf_addr}
    {m' : Memory 64} (hi : i < o.rela.length) (hcall : runtime_relocations sys heap m o.map i = .ok (a, m')) :
    LazyInv heap₀ m₀ H ps o others got_plt addr content heap m' (i :: called) := by
  have hr := List.getElem?_eq_getElem hi
  rw [runtime_relocations_eq hsetup hinv List.mem_cons_self hr] at hcall
  cases hcall
  refine ⟨hinv.list, hinv.keeps, ?_, ?_, ?_⟩
  · rw [Memory.hide_putWord (slot_mem_words List.mem_cons_self (List.getElem_mem hi))]
    exact hinv.sub
  · intro p hp r hr
    exact Memory.writableRegion_putWord.mpr (hinv.writable p hp r hr)
  · intro j s hj
    by_cases hij : j = i
    · subst hij
      have heq : o.rela[j] = s := by simpa [hr] using hj
      rw [heq, if_pos (by simp)]
      exact Memory.loadWord_putWord_same rfl (by decide) (hinv.writable o (by simp) s (List.mem_of_getElem? hj))
    · have hdis : (Memory.wordRegion 64 (o.slot o.rela[i])).Disjoint (Memory.wordRegion 64 (o.slot s)) :=
        hsetup.apart.disjoint (by simp [LazyObject.slots, hr]) (by simp [LazyObject.slots, hj]) (Ne.symm hij)
      rw [Memory.loadWord_putWord_of_disjoint hdis, hinv.value j s hj]
      simp [hij]

/-- A PLT call of another object does not touch the slots of `o`. -/
theorem LazyInv.other {m₀ m : Memory 64} {heap₀ heap : Heap} {called : List Nat}
    (hsetup : LazySetup heap₀ m₀ H ps o others got_plt addr content)
    (hinv : LazyInv heap₀ m₀ H ps o others got_plt addr content heap m called) {p : LazyObject sys} (hp : p ∈ others)
    {i : Nat} {a : elf_addr} {m' : Memory 64} (hi : i < p.rela.length)
    (hcall : runtime_relocations sys heap m p.map i = .ok (a, m')) :
    LazyInv heap₀ m₀ H ps o others got_plt addr content heap m' called := by
  have hmem : p ∈ o :: others := List.mem_cons_of_mem o hp
  rw [runtime_relocations_eq hsetup hinv hmem (List.getElem?_eq_getElem hi)] at hcall
  cases hcall
  refine ⟨hinv.list, hinv.keeps, ?_, ?_, ?_⟩
  · rw [Memory.hide_putWord (slot_mem_words hmem (List.getElem_mem hi))]
    exact hinv.sub
  · intro q hq r hr
    exact Memory.writableRegion_putWord.mpr (hinv.writable q hq r hr)
  · intro j s hj
    have hdis := hsetup.others_apart p hp _ (List.getElem_mem hi) s (List.mem_of_getElem? hj)
    rw [Memory.loadWord_putWord_of_disjoint hdis, hinv.value j s hj]

theorem LazyInv.append {m₀ m : Memory 64} {heap₀ heap : Heap} {called : List Nat}
    (hinv : LazyInv heap₀ m₀ H ps o others got_plt addr content heap m called) (node : LinkMap) {tail : Nat}
    {m' : Memory 64} (htail : follow LinkMap.l_next heap heap.length H = .ok tail) (hmap : m.Sub m') :
    LazyInv heap₀ m₀ H ps o others got_plt addr content (heap.append_node tail node) m' called := by
  obtain ⟨more, hlist⟩ := hinv.list
  refine ⟨?_, hinv.keeps.trans (heap.keeps_append_node tail node), hinv.sub.trans (hmap.hide _), ?_, ?_⟩
  · have hlast := hlist.chain.follow_eq_last heap.length hlist.chain.length_le
    rw [htail, Outcome.ok.injEq] at hlast
    have hsplit := List.dropLast_append_getLast (show H :: ps ++ more ≠ [] by simp)
    have hfront : IsLinkMap heap (some H) ((H :: ps ++ more).dropLast ++ [tail]) := by
      rw [hlast]
      exact hsplit.symm ▸ hlist
    refine ⟨more ++ [heap.length], ?_⟩
    have hgrown := hfront.append_node node
    rw [hlast] at hgrown ⊢
    rw [← List.append_assoc, ← hsplit]
    exact hgrown
  · intro p hp r hr
    exact hmap.writableRegion (hinv.writable p hp r hr)
  · intro i r hi
    exact Outcome.eq_ok_of_le (hmap.loadWord_le 64 _) (hinv.value i r hi)

theorem LazyRun.inv {m m₀ m' : Memory 64} {heap' : Heap} {called : List Nat}
    (hsetup : LazySetup heap m H ps o others got_plt addr content)
    (hlazy : relocation_lazy sys heap m o.map o.rela o.rela.length = .ok m₀)
    (hrun : LazyRun H o others heap m₀ heap' m' called) :
    LazyInv heap m H ps o others got_plt addr content heap' m' called := by
  induction hrun with
  | relocated => exact lazyInv_relocated hsetup hlazy
  | call _ hi hcall ih => exact ih.call hsetup hi hcall
  | other _ hp hi hcall ih => exact ih.other hsetup hp hi hcall
  | append _ node htail hmap ih => exact ih.append node htail hmap

/-- Lazy binding agrees with eager binding on every run: relocating `o` lazily
succeeds, and in every state reached from there by PLT calls of `o` and of
other objects and by appended objects, every PLT call succeeds, a call of `o`
returns what `relocation_lookup` writes into its slot, the slots that were
called hold it, and the others hold their link-time content plus `l_addr`. -/
theorem relocation_lazy_agrees {m : Memory 64} (hsetup : LazySetup heap m H ps o others got_plt addr content) :
    ∃ m₀ eager, relocation_lazy sys heap m o.map o.rela o.rela.length = .ok m₀ ∧
      relocation_lookup sys heap m o.rela o.rela.length o.node (some H) = .ok eager ∧
      ∀ heap' m' called, LazyRun H o others heap m₀ heap' m' called →
        (∀ p ∈ others, ∀ i < p.rela.length, ∃ r, runtime_relocations sys heap' m' p.map i = .ok r) ∧
        ∀ (i : Nat) r, o.rela[i]? = some r → ∃ a m'', eager.loadWord 64 (o.slot r) = .ok a ∧
          runtime_relocations sys heap' m' o.map i = .ok (a, m'') ∧
          m'.loadWord 64 (o.slot r) = .ok (if i ∈ called then a else content r + o.node.l_addr) := by
  have hsymbolic : ∀ r ∈ o.rela, r.type = R_X86_64_JUMP_SLOT := o.jump_slots
  have hresolvable : Resolvable sys heap m o.elf o.node (some H)
      (Memory.wordRegions 64 (lazy_words o others got_plt)) (addr o) o.rela :=
    { not_relative := fun r hr => by rw [hsymbolic r hr]; decide
      finds := fun r hr _ => hsetup.finds o (by simp) r hr
      hidden := fun r hr _ => slot_mem_words List.mem_cons_self hr
      writable := fun r hr _ => hsetup.writable o (by simp) r hr }
  have heager := relocation_lookup_of_no_copy o.ehdr hresolvable fun r hr => by rw [hsymbolic r hr]; decide
  refine ⟨_, _, relocation_lazy_eq hsetup, heager, ?_⟩
  intro heap' m' called hrun
  have hinv := hrun.inv hsetup (relocation_lazy_eq hsetup)
  constructor
  · intro p hp i hi
    exact ⟨_, runtime_relocations_eq hsetup hinv (List.mem_cons_of_mem o hp) (List.getElem?_eq_getElem hi)⟩
  · intro i r hi
    have hr := List.mem_of_getElem? hi
    have hapart : Memory.Apart 64 (relocations.slots o.node.l_addr o.rela) := by
      rw [o.slots_eq]
      exact hsetup.apart
    exact ⟨addr o r, _, loadWord_bindings hapart hresolvable.writable hr (Or.inl (hsymbolic r hr)),
      runtime_relocations_eq hsetup hinv List.mem_cons_self hi, hinv.value i r hi⟩

end Run

/-- A file that calls `f` through the PLT. -/
def caller_content : List Byte :=
  image [] [⟨.lit ".dynsym", 0, [⟨0, 0, 0, 0⟩, ⟨1, SHN_UNDEF, 0, 0⟩].flatMap Sym.encode⟩,
    ⟨.lit ".dynstr", 0, 0#8 :: (CString.lit "f").bytes⟩,
    ⟨.lit ".rela.plt", 0, [⟨0x3018, 1#32 ++ R_X86_64_JUMP_SLOT, 0⟩].flatMap Rela.encode⟩,
    ⟨.lit ".got.plt", 0x3000, []⟩]

def caller_sys : System := .of_files [(.lit "a.so", caller_content), (.lit "b.so", definer.file.content)]

/-- The object that defines `f`, and behind it the caller. -/
def caller_heap : Heap := [⟨0x2000, .lit "b.so", none, some 1, none⟩, ⟨0x1000, .lit "a.so", none, none, some 0⟩]

def caller : LazyObject caller_sys where
  map := 1
  node := ⟨0x1000, .lit "a.so", none, none, some 0⟩
  elf := Ehdr.decode caller_content
  buf := [⟨0x3018, 1#32 ++ R_X86_64_JUMP_SLOT, 0⟩].flatMap Rela.encode
  ehdr := by decide +kernel
  rela_plt := by decide +kernel
  jump_slots := by
    rw [relas_encode]
    decide

theorem caller_rela : caller.rela = [⟨0x3018, 1#32 ++ R_X86_64_JUMP_SLOT, 0⟩] := relas_encode _

/-- The definer's page, and the caller's `.got.plt` with a slot that holds the
link-time address of its PLT stub. -/
def caller_memory : Memory 64 :=
  ((definer.place fun _ => none).mmap ⟨0x4000, 0x100⟩ ⟨true, true, false⟩).putWord 0x4018 0x1006#64

/-- A file that calls through the PLT, by entries of `rela`; its symbol table imports
`ab` and `ac`. -/
def pair_file (rela : List Rela) : List Byte :=
  image [] [⟨.lit ".dynsym", 0, [⟨0, 0, 0, 0⟩, ⟨1, SHN_UNDEF, 0, 0⟩, ⟨4, SHN_UNDEF, 0, 0⟩].flatMap Sym.encode⟩,
    ⟨.lit ".dynstr", 0, 0#8 :: ((CString.lit "ab").bytes ++ (CString.lit "ac").bytes)⟩,
    ⟨.lit ".rela.plt", 0, rela.flatMap Rela.encode⟩, ⟨.lit ".got.plt", 0x3000, []⟩]

/-- An entry of the given symbol for the slot at `offset` behind `.got.plt`. -/
def plt_rela (sym : BitVec 32) (offset : elf_addr) : Rela := ⟨0x3000 + offset, sym ++ R_X86_64_JUMP_SLOT, 0⟩

def pair_sys : System :=
  .of_files [(.lit "a.so", pair_file [plt_rela 1 0x18, plt_rela 2 0x20]), (.lit "b.so", two_bucket_file.content),
    (.lit "c.so", pair_file [plt_rela 2 0x18])]

/-- The object that defines `ab` and `ac`, and behind it two callers. -/
def pair_heap : Heap :=
  [⟨0x2000, .lit "b.so", none, some 1, none⟩, ⟨0x1000, .lit "a.so", none, some 2, some 0⟩,
    ⟨0x8000, .lit "c.so", none, none, some 1⟩]

def pair_caller : LazyObject pair_sys where
  map := 1
  node := ⟨0x1000, .lit "a.so", none, some 2, some 0⟩
  elf := Ehdr.decode (pair_file [plt_rela 1 0x18, plt_rela 2 0x20])
  buf := [plt_rela 1 0x18, plt_rela 2 0x20].flatMap Rela.encode
  ehdr := by decide +kernel
  rela_plt := by decide +kernel
  jump_slots := by
    rw [relas_encode]
    decide

def pair_other : LazyObject pair_sys where
  map := 2
  node := ⟨0x8000, .lit "c.so", none, none, some 1⟩
  elf := Ehdr.decode (pair_file [plt_rela 2 0x18])
  buf := [plt_rela 2 0x18].flatMap Rela.encode
  ehdr := by decide +kernel
  rela_plt := by decide +kernel
  jump_slots := by
    rw [relas_encode]
    decide

theorem pair_rela : pair_caller.rela = [plt_rela 1 0x18, plt_rela 2 0x20] := relas_encode _

theorem pair_other_rela : pair_other.rela = [plt_rela 2 0x18] := relas_encode _

/-- The definer's page, and the `.got.plt` of the callers. The slots hold the
link-time addresses of PLT stubs. -/
def pair_memory : Memory 64 :=
  (((((Memory.mmap (fun _ => none) ⟨0x2000, 0x1000⟩ ⟨true, false, true⟩).put 0x2200 two_bucket_table.bytes).mmap
    ⟨0x4000, 0x100⟩ ⟨true, true, false⟩).mmap ⟨0xb000, 0x100⟩ ⟨true, true, false⟩).putWord 0x4018 0x1006#64).putWord
      0x4020 0x1016#64

/-- Where the two names are defined. -/
def pair_addr (r : Rela) : elf_addr := if r.sym = 1 then 0x2050 else 0x2060

def pair_content (r : Rela) : elf_addr := if r.sym = 1 then 0x1006 else 0x1016

theorem pair_setup :
    LazySetup pair_heap pair_memory 0 [1, 2] pair_caller [pair_other] 0x4000 (fun _ => pair_addr)
      pair_content where
  list := ⟨rfl, _, rfl, rfl, rfl, _, rfl, rfl, rfl, _, rfl, rfl, rfl⟩
  on_list p hp := by
    obtain rfl | rfl := List.mem_pair.mp hp
    · exact ⟨by decide, rfl⟩
    · exact ⟨by decide, rfl⟩
  got := by decide +kernel
  got_writable a ha := by
    obtain rfl | rfl := List.mem_pair.mp ha <;> decide +kernel
  finds p hp r hr := by
    have hwords : lazy_words pair_caller [pair_other] 0x4000 = [0x4008, 0x4010, 0x4018, 0x4020, 0xb018] := by
      decide +kernel
    rw [hwords]
    obtain rfl | rfl := List.mem_pair.mp hp
    · rw [pair_rela] at hr
      obtain rfl | rfl := List.mem_pair.mp hr
      · exact ⟨.lit "ab", by decide +kernel, by decide +kernel⟩
      · exact ⟨.lit "ac", by decide +kernel, by decide +kernel⟩
    · rw [pair_other_rela, List.mem_singleton] at hr
      subst hr
      exact ⟨.lit "ac", by decide +kernel, by decide +kernel⟩
  writable p hp r hr := by
    obtain rfl | rfl := List.mem_pair.mp hp
    · rw [pair_rela] at hr
      obtain rfl | rfl := List.mem_pair.mp hr <;> decide +kernel
    · rw [pair_other_rela, List.mem_singleton] at hr
      subst hr
      decide +kernel
  content r hr := by
    rw [pair_rela] at hr
    obtain rfl | rfl := List.mem_pair.mp hr <;> decide +kernel
  apart := by
    rw [LazyObject.slots, pair_rela]
    exact List.pairwise_pair.mpr (Region.disjoint_of_bases (by decide +kernel) (by decide +kernel))
  avoids a ha r hr := by
    rw [pair_rela] at hr
    obtain rfl | rfl := List.mem_pair.mp ha <;> obtain rfl | rfl := List.mem_pair.mp hr <;>
      exact Region.disjoint_of_bases (by decide +kernel) (by decide +kernel)
  others_apart p hp r hr s hs := by
    obtain rfl := List.mem_singleton.mp hp
    rw [pair_other_rela, List.mem_singleton] at hr
    subst hr
    rw [pair_rela] at hs
    obtain rfl | rfl := List.mem_pair.mp hs <;>
      exact Region.disjoint_of_bases (by decide +kernel) (by decide +kernel)

/-- The other object calls, and then the caller through its second entry: the second
slot holds what eager binding writes there, and the first one its stub until it is
called as well. -/
theorem relocation_lazy_pair :
    ∃ m₀ eager m₁ m₂, relocation_lazy pair_sys pair_heap pair_memory 1 pair_caller.rela pair_caller.rela.length = .ok m₀ ∧
      relocation_lookup pair_sys pair_heap pair_memory pair_caller.rela pair_caller.rela.length pair_caller.node (some 0) =
        .ok eager ∧
      LazyRun 0 pair_caller [pair_other] pair_heap m₀ pair_heap m₁ [1] ∧
      m₁.loadWord 64 0x4018 = .ok 0x2006 ∧ m₁.loadWord 64 0x4020 = eager.loadWord 64 0x4020 ∧
      LazyRun 0 pair_caller [pair_other] pair_heap m₀ pair_heap m₂ [0, 1] ∧
      m₂.loadWord 64 0x4018 = eager.loadWord 64 0x4018 ∧ m₂.loadWord 64 0x4020 = eager.loadWord 64 0x4020 := by
  obtain ⟨m₀, eager, hlazy, heager, hrun⟩ := relocation_lazy_agrees pair_setup
  have hfirst : pair_caller.rela[0]? = some (plt_rela 1 0x18) := by
    rw [pair_rela]
    rfl
  have hsecond : pair_caller.rela[1]? = some (plt_rela 2 0x20) := by
    rw [pair_rela]
    rfl
  have hslots : pair_caller.slot (plt_rela 1 0x18) = 0x4018 ∧ pair_caller.slot (plt_rela 2 0x20) = 0x4020 := by decide +kernel
  have hlength : pair_caller.rela.length = 2 ∧ pair_other.rela.length = 1 := by
    rw [pair_rela, pair_other_rela]
    decide
  obtain ⟨⟨b, m'⟩, hother⟩ := (hrun _ _ _ .relocated).1 pair_other (by simp) 0 (by rw [hlength.2]; decide)
  have hstart : LazyRun 0 pair_caller [pair_other] pair_heap m₀ pair_heap m' [] :=
    .other .relocated List.mem_cons_self (by rw [hlength.2]; decide) hother
  obtain ⟨a₁, m₁, -, hcall₁, -⟩ := (hrun _ _ _ hstart).2 1 _ hsecond
  have hone : LazyRun 0 pair_caller [pair_other] pair_heap m₀ pair_heap m₁ [1] :=
    .call hstart (by rw [hlength.1]; decide) hcall₁
  obtain ⟨a₀, m₂, -, hcall₀, hstub⟩ := (hrun _ _ _ hone).2 0 _ hfirst
  obtain ⟨_, _, heager₁, -, hbound₁⟩ := (hrun _ _ _ hone).2 1 _ hsecond
  have htwo : LazyRun 0 pair_caller [pair_other] pair_heap m₀ pair_heap m₂ [0, 1] :=
    .call hone (by rw [hlength.1]; decide) hcall₀
  obtain ⟨_, _, heager₀, -, hbound₀⟩ := (hrun _ _ _ htwo).2 0 _ hfirst
  obtain ⟨_, _, heager₂, -, hbound₂⟩ := (hrun _ _ _ htwo).2 1 _ hsecond
  rw [hslots.1] at hstub heager₀ hbound₀
  rw [hslots.2] at heager₁ hbound₁ heager₂ hbound₂
  exact ⟨m₀, eager, m₁, m₂, hlazy, heager, hone, hstub, hbound₁.trans heager₁.symm, htwo, hbound₀.trans heager₀.symm,
    hbound₂.trans heager₂.symm⟩

end ldso.relocations
