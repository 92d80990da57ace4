import LdSo.System
import LdSo.Lib.LinkedList
import LdSo.Lib.Memory.Frame
import Mathlib.Data.List.Perm.Subperm
import Mathlib.Data.List.Nodup
import Mathlib.Data.List.Basic

open cmodel

namespace ldso

/-- `struct link_map`. Nodes are named by their position in the heap; `l_ld` is
uninitialised until a PT_DYNAMIC header is met. -/
structure LinkMap where
  l_addr : elf_addr
  l_name : CString
  l_ld : Option elf_addr
  l_next : Option Nat
  l_prev : Option Nat
  deriving DecidableEq

/-- The nodes allocated so far. None is ever freed, so an allocation appends. -/
abbrev Heap := List LinkMap

/-- The chain of `l_next` fields from a node pointer. -/
abbrev NextChain (heap : Heap) (map : Option Nat) (ps : List Nat) : Prop := Chain LinkMap.l_next heap map ps

/-- A well-formed link map: from its head, `l_next` visits `ps` and ends in
NULL, `l_prev` is the inverse of `l_next`, and the head has no `l_prev`. -/
abbrev IsLinkMap (heap : Heap) (head : Option Nat) (ps : List Nat) : Prop :=
  Segment LinkMap.l_next LinkMap.l_prev heap none head ps none

/-- The nodes a list of pointers refers to. -/
def Heap.nodes (heap : Heap) (ps : List Nat) : List LinkMap := ps.filterMap fun p => heap[p]?

/-- The nodes of a heap in the order of allocation. -/
theorem Heap.nodes_range (heap : Heap) (n : Nat) : heap.nodes (List.range n) = heap.take n := by
  induction n with
  | zero => rfl
  | succ n ih =>
    have hsplit : heap.nodes (List.range n ++ [n]) = heap.nodes (List.range n) ++ heap.nodes [n] :=
      List.filterMap_append
    rw [List.range_succ, hsplit, ih, List.take_add_one]
    cases h : heap[n]? <;> simp [Heap.nodes, h]

/-- Distinct nodes carry no name more often than the heap does. -/
theorem Heap.count_nodes_le {heap : Heap} {ps : List Nat} (hnodup : ps.Nodup) (hlt : ∀ p ∈ ps, p < heap.length)
    (x : CString) :
    ((heap.nodes ps).map LinkMap.l_name).count x ≤ (heap.map LinkMap.l_name).count x := by
  have hsub : ps.Subperm (List.range heap.length) := hnodup.subperm fun p hp => List.mem_range.mpr (hlt p hp)
  obtain ⟨qs, hperm, hsub⟩ := hsub
  have hall : heap.nodes (List.range heap.length) = heap := by rw [Heap.nodes_range, List.take_length]
  calc ((heap.nodes ps).map LinkMap.l_name).count x = ((heap.nodes qs).map LinkMap.l_name).count x :=
        (((hperm.filterMap _).map _).count_eq x).symm
    _ ≤ ((heap.nodes (List.range heap.length)).map LinkMap.l_name).count x := ((hsub.filterMap _).map _).count_le x
    _ = (heap.map LinkMap.l_name).count x := by rw [hall]

/-- `map->l_next = new`. -/
def Heap.link (heap : Heap) (map new : Nat) : Heap := heap.modify map fun v => { v with l_next := some new }

/-- A new node, allocated and linked behind the last one. -/
def Heap.append_node (heap : Heap) (tail : Nat) (node : LinkMap) : Heap :=
  Heap.link (heap ++ [{ node with l_next := none, l_prev := some tail }]) tail heap.length

/-- Takes a node out: `map->l_prev->l_next = map->l_next`, then
`map->l_next->l_prev = map->l_prev`, each when the neighbour is there. -/
def Heap.unlink (heap : Heap) (map : Nat) : Heap :=
  let next := heap[map]?.bind LinkMap.l_next
  let prev := heap[map]?.bind LinkMap.l_prev
  let heap := prev.elim heap fun p => heap.modify p fun v => { v with l_next := next }
  next.elim heap fun n => heap.modify n fun v => { v with l_prev := prev }

theorem Heap.link_getElem? (heap : Heap) (map new p : Nat) :
    (heap.link map new)[p]? = heap[p]?.map fun v => if map = p then { v with l_next := some new } else v := by
  unfold Heap.link
  rw [List.getElem?_modify]
  split <;> simp [*]

theorem Heap.link_prev (heap : Heap) (map new p : Nat) :
    ((heap.link map new)[p]?).map LinkMap.l_prev = (heap[p]?).map LinkMap.l_prev := by
  rw [Heap.link_getElem?, Option.map_map]
  congr 1
  funext v
  simp only [Function.comp_apply]
  split <;> rfl

theorem Heap.link_next_of_ne (heap : Heap) {map new p : Nat} (hne : map ≠ p) :
    (heap.link map new)[p]? = heap[p]? := by
  rw [Heap.link_getElem?]
  simp [hne]

/-- The nodes that were there keep their place, name and address. -/
def Heap.Keeps (heap heap' : Heap) : Prop :=
  ∀ (p : Nat) v, heap[p]? = some v → ∃ v', heap'[p]? = some v' ∧ v'.l_name = v.l_name ∧ v'.l_addr = v.l_addr

theorem Heap.Keeps.refl (heap : Heap) : heap.Keeps heap := fun _ v hv => ⟨v, hv, rfl, rfl⟩

theorem Heap.Keeps.trans {heap heap' heap'' : Heap} (h : heap.Keeps heap') (h' : heap'.Keeps heap'') :
    heap.Keeps heap'' := by
  intro p v hv
  obtain ⟨v', hv', hname, haddr⟩ := h p v hv
  obtain ⟨v'', hv'', hname', haddr'⟩ := h' p v' hv'
  exact ⟨v'', hv'', hname'.trans hname, haddr'.trans haddr⟩

theorem Heap.keeps_append (heap more : Heap) : heap.Keeps (heap ++ more) := by
  intro p v hv
  exact ⟨v, by rw [List.getElem?_append_left (List.getElem?_eq_some_iff.mp hv).1, hv], rfl, rfl⟩

theorem Heap.keeps_link (heap : Heap) (map new : Nat) : heap.Keeps (heap.link map new) := by
  intro p v hv
  rw [Heap.link_getElem?, hv]
  by_cases h : map = p
  · exact ⟨{ v with l_next := some new }, by simp [h], rfl, rfl⟩
  · exact ⟨v, by simp [h], rfl, rfl⟩

theorem Heap.keeps_append_node (heap : Heap) (tail : Nat) (node : LinkMap) : heap.Keeps (heap.append_node tail node) :=
  (heap.keeps_append _).trans (Heap.keeps_link _ _ _)

@[simp] theorem Heap.length_append_node (heap : Heap) (tail : Nat) (node : LinkMap) :
    (heap.append_node tail node).length = heap.length + 1 := by
  simp [Heap.append_node, Heap.link]

/-- Appending a node keeps a link map well formed. -/
theorem IsLinkMap.append_node {heap : Heap} {head : Option Nat} {ps : List Nat} {tail : Nat}
    (h : IsLinkMap heap head (ps ++ [tail])) (node : LinkMap) :
    IsLinkMap (heap.append_node tail node) head (ps ++ [tail] ++ [heap.length]) := by
  have hlt := h.lt_length
  have hnodup := h.chain.nodup
  have hold : ∀ p < heap.length, (heap ++ [{ node with l_next := none, l_prev := some tail }])[p]? = heap[p]? :=
    fun p hp => List.getElem?_append_left hp
  have hnew : (heap.append_node tail node)[heap.length]? = some { node with l_next := none, l_prev := some tail } := by
    unfold Heap.append_node
    rw [Heap.link_next_of_ne _ (hlt tail (by simp)).ne, List.getElem?_concat_length]
  refine Segment.snoc h ?_ ?_ ?_ hnew rfl rfl
  · intro p hp
    have hne : tail ≠ p := by
      rintro rfl
      exact (List.nodup_append.mp hnodup).2.2 _ hp _ (by simp) rfl
    unfold Heap.append_node
    rw [Heap.link_next_of_ne _ hne, hold p (hlt p (by simp [hp]))]
  · intro p hp
    unfold Heap.append_node
    rw [Heap.link_prev, hold p (hlt p hp)]
  · unfold Heap.append_node
    rw [Heap.link_getElem?, hold tail (hlt tail (by simp))]
    simp [List.getElem?_eq_getElem (hlt tail (by simp))]

/-- The tail is found by following the list from its head. -/
theorem IsLinkMap.append_node_follow {heap : Heap} {head tail : Nat} {ps : List Nat}
    (h : IsLinkMap heap (some head) ps) (node : LinkMap)
    (htail : follow LinkMap.l_next heap heap.length head = .ok tail) :
    IsLinkMap (heap.append_node tail node) (some head) (ps ++ [heap.length]) := by
  cases ps with
  | nil => cases h.chain
  | cons p ps =>
    obtain rfl : head = p := Option.some.inj h.chain.1
    have hlast := h.chain.follow_eq_last heap.length h.chain.length_le
    rw [htail, Outcome.ok.injEq] at hlast
    have hsplit := List.dropLast_append_getLast (show head :: ps ≠ [] by simp)
    rw [← hlast] at hsplit
    have hfront : IsLinkMap heap (some head) ((head :: ps).dropLast ++ [tail]) := hsplit.symm ▸ h
    have hgrown := hfront.append_node node
    rwa [hsplit] at hgrown

/-- So it stays the list of all nodes, in the order of allocation. -/
theorem IsLinkMap.append_node_range {heap : Heap} {tail : Nat} (hlast : tail + 1 = heap.length)
    (h : IsLinkMap heap (some 0) (List.range heap.length)) (node : LinkMap) :
    IsLinkMap (heap.append_node tail node) (some 0) (List.range (heap.append_node tail node).length) := by
  rw [← hlast, List.range_succ] at h
  rw [Heap.length_append_node, List.range_succ, ← hlast, List.range_succ]
  exact hlast ▸ IsLinkMap.append_node h node

/-- Nodes that are not linked do not change a link map. -/
theorem IsLinkMap.append {heap : Heap} {head : Option Nat} {ps : List Nat} (h : IsLinkMap heap head ps) (more : Heap) :
    IsLinkMap (heap ++ more) head ps := by
  have hold : ∀ p ∈ ps, (heap ++ more)[p]? = heap[p]? := fun p hp => List.getElem?_append_left (h.lt_length p hp)
  exact h.congr (fun p hp => by rw [hold p hp]) fun p hp => by rw [hold p hp]

/-- `l_next` of a node leads to the one behind it on the list. -/
theorem IsLinkMap.next_eq_head {heap : Heap} {head : Option Nat} {ps qs : List Nat} {p : Nat}
    (h : IsLinkMap heap head (ps ++ p :: qs)) : heap[p]?.bind LinkMap.l_next = qs.head? := by
  obtain ⟨mid, -, -, v, hv, -, hrest⟩ := Segment.append_iff.mp h
  rw [hv, Option.bind_some]
  cases qs with
  | nil => exact hrest
  | cons q qs => exact hrest.1

/-- `l_prev` of a node leads to the one in front of it on the list. -/
theorem IsLinkMap.prev_eq_last {heap : Heap} {head : Option Nat} {ps qs : List Nat} {p : Nat}
    (h : IsLinkMap heap head (ps ++ p :: qs)) : heap[p]?.bind LinkMap.l_prev = ps.getLast? := by
  obtain ⟨mid, -, -, v, hv, hback, -⟩ := Segment.append_iff.mp h
  rw [hv, Option.bind_some, hback]
  simp [lastOr]

/-- `l_prev` of a listed node leads to a listed node. -/
theorem IsLinkMap.prev_mem {heap : Heap} {head : Option Nat} {ps : List Nat} {p q : Nat} (h : IsLinkMap heap head ps)
    (hp : p ∈ ps) (hq : heap[p]?.bind LinkMap.l_prev = some q) : q ∈ ps := by
  obtain ⟨as, bs, rfl⟩ := List.append_of_mem hp
  rw [h.prev_eq_last] at hq
  exact List.mem_append_left _ (List.mem_of_getLast? hq)

theorem Heap.map_modify {α : Type} (heap : Heap) (i r : Nat) (f : LinkMap → LinkMap) (g : LinkMap → α) :
    ((heap.modify i f)[r]?).map g = (heap[r]?).map fun v => if i = r then g (f v) else g v := by
  rw [List.getElem?_modify]
  by_cases h : i = r <;> cases heap[r]? <;> simp [h]

/-- What taking a node out does to the links: the node before it leads on to the
node behind it, which leads back. -/
theorem Heap.unlink_next {heap : Heap} {p : Nat} {v : LinkMap} (hv : heap[p]? = some v) (r : Nat) :
    ((heap.unlink p)[r]?).map LinkMap.l_next =
      (heap[r]?).map fun u => if v.l_prev = some r then v.l_next else u.l_next := by
  unfold Heap.unlink
  rw [hv, Option.bind_some, Option.bind_some]
  cases v.l_prev with
  | none => cases v.l_next <;> simp [Heap.map_modify]
  | some q => cases v.l_next <;> simp [Heap.map_modify]

theorem Heap.unlink_prev {heap : Heap} {p : Nat} {v : LinkMap} (hv : heap[p]? = some v) (r : Nat) :
    ((heap.unlink p)[r]?).map LinkMap.l_prev =
      (heap[r]?).map fun u => if v.l_next = some r then v.l_prev else u.l_prev := by
  unfold Heap.unlink
  rw [hv, Option.bind_some, Option.bind_some]
  cases v.l_prev with
  | none => cases v.l_next <;> simp [Heap.map_modify]
  | some q => cases v.l_next <;> simp [Heap.map_modify]

/-- Taking a node that is not the first out of a link map keeps it well formed. -/
theorem IsLinkMap.unlink {heap : Heap} {head : Option Nat} {ps qs : List Nat} {p : Nat}
    (h : IsLinkMap heap head (ps ++ p :: qs)) (hps : ps ≠ []) : IsLinkMap (heap.unlink p) head (ps ++ qs) := by
  obtain ⟨fs, t, rfl⟩ : ∃ fs t, ps = fs ++ [t] := ⟨_, _, (List.dropLast_append_getLast hps).symm⟩
  have hlt := h.lt_length
  have hnodup := h.chain.nodup
  obtain ⟨mid, -, -, v, hv, -⟩ := Segment.append_iff.mp h
  have hback : v.l_prev = some t := by simpa [hv] using IsLinkMap.prev_eq_last h
  have hnextv : v.l_next = qs.head? := by simpa [hv] using IsLinkMap.next_eq_head h
  apply Segment.remove h hv
  · intro r hr
    have hne : t ≠ r := by
      rintro rfl
      simp only [List.nodup_append, List.nodup_cons, List.mem_append, List.mem_cons] at hnodup hr
      grind
    rw [Heap.unlink_next hv, hback]
    simp [hne]
  · intro r hr
    have hne : qs.head? ≠ some r := by
      intro hhead
      cases qs with
      | nil => cases hhead
      | cons q qs =>
        cases hhead
        simp only [List.nodup_append, List.nodup_cons, List.mem_append, List.mem_cons, List.tail_cons] at hnodup hr
        grind
    rw [Heap.unlink_prev hv, hnextv]
    simp [hne]
  · rw [Heap.unlink_next hv, List.getElem?_eq_getElem (hlt t (by simp))]
    simp [hback]
  · intro q hq
    rw [Heap.unlink_prev hv, List.getElem?_eq_getElem (hlt q (by
      have := List.mem_of_head? hq
      simp [this]))]
    simp [hnextv, Option.mem_def.mp hq, hback]

end ldso
