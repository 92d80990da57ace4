import LdSo.Lib.Outcome
import Mathlib.Data.List.Nodup
import Mathlib.Data.List.Perm.Subperm
import Mathlib.Data.List.Induction

namespace cmodel

/-- Following one pointer field from node `p` until it is NULL. The fuel bounds
the number of nodes; more hops than there are nodes go round a cycle. -/
def follow {ν : Type} (link : ν → Option Nat) (heap : List ν) : Nat → Nat → Outcome Nat
  | 0, _ => .diverge
  | fuel + 1, p =>
    match heap[p]? with
    | none => .fault
    | some v =>
      match link v with
      | none => .ok p
      | some q => follow link heap fuel q

/-- The singly linked chain from `start`: its nodes are `ps` in order, and its
last link is NULL. -/
def Chain {ν : Type} (next : ν → Option Nat) (heap : List ν) : Option Nat → List Nat → Prop
  | start, [] => start = none
  | start, p :: ps => start = some p ∧ ∃ v, heap[p]? = some v ∧ Chain next heap (next v) ps

namespace Chain

variable {ν : Type} {next : ν → Option Nat} {heap : List ν}

theorem unique {start : Option Nat} {ps qs : List Nat} (hp : Chain next heap start ps)
    (hq : Chain next heap start qs) : ps = qs := by
  induction ps generalizing start qs with
  | nil =>
    cases qs with
    | nil => rfl
    | cons q qs =>
      have hnull : start = none := hp
      rw [hq.1] at hnull
      cases hnull
  | cons p ps ih =>
    cases qs with
    | nil =>
      have hnull : start = none := hq
      rw [hp.1] at hnull
      cases hnull
    | cons q qs =>
      obtain ⟨hstart, v, hv, htail⟩ := hp
      obtain ⟨hstart', v', hv', htail'⟩ := hq
      have hpq : p = q := Option.some.inj (hstart.symm.trans hstart')
      subst hpq
      have hvv : v = v' := Option.some.inj (hv.symm.trans hv')
      subst hvv
      rw [ih htail htail']

theorem of_append {start : Option Nat} {ps qs : List Nat} (h : Chain next heap start (ps ++ qs)) :
    ∃ mid, Chain next heap mid qs := by
  induction ps generalizing start with
  | nil => exact ⟨start, h⟩
  | cons p ps ih =>
    obtain ⟨-, v, -, htail⟩ := h
    exact ih htail

/-- A chain that ends visits no node twice. -/
theorem nodup {start : Option Nat} {ps : List Nat} (h : Chain next heap start ps) : ps.Nodup := by
  induction ps generalizing start with
  | nil => exact List.nodup_nil
  | cons p ps ih =>
    obtain ⟨hstart, v, hv, htail⟩ := h
    refine List.nodup_cons.mpr ⟨?_, ih htail⟩
    intro hmem
    obtain ⟨as, bs, hsplit⟩ := List.append_of_mem hmem
    rw [hsplit] at htail
    obtain ⟨mid, hmid⟩ := htail.of_append
    have hagain : Chain next heap (some p) (p :: bs) := by
      rw [← hmid.1]
      exact hmid
    have hwhole : Chain next heap (some p) (p :: (as ++ p :: bs)) := ⟨rfl, v, hv, htail⟩
    have hlen := congrArg List.length (hwhole.unique hagain)
    simp at hlen
    omega

theorem lt_length {start : Option Nat} {ps : List Nat} (h : Chain next heap start ps) :
    ∀ p ∈ ps, p < heap.length := by
  induction ps generalizing start with
  | nil => simp
  | cons q ps ih =>
    obtain ⟨-, v, hv, htail⟩ := h
    intro p hp
    obtain rfl | hp := List.mem_cons.mp hp
    · exact (List.getElem?_eq_some_iff.mp hv).1
    · exact ih htail p hp

/-- There are no more nodes on a chain than in the heap. -/
theorem length_le {start : Option Nat} {ps : List Nat} (h : Chain next heap start ps) :
    ps.length ≤ heap.length := by
  have hsub : ps ⊆ List.range heap.length := fun p hp => List.mem_range.mpr (h.lt_length p hp)
  simpa using (List.subperm_of_subset h.nodup hsub).length_le

/-- There are fewer when a node is not on the chain. -/
theorem length_lt {start : Option Nat} {ps : List Nat} (h : Chain next heap start ps) {q : Nat} (hq : q < heap.length)
    (hout : q ∉ ps) : ps.length < heap.length := by
  have hsub : q :: ps ⊆ List.range heap.length := by
    intro p hp
    obtain rfl | hp := List.mem_cons.mp hp
    · exact List.mem_range.mpr hq
    · exact List.mem_range.mpr (h.lt_length p hp)
  have hlen := (List.subperm_of_subset (List.nodup_cons.mpr ⟨hout, h.nodup⟩) hsub).length_le
  rwa [List.length_cons, List.length_range] at hlen

/-- Following the links of a chain leads to its last node. -/
theorem follow_eq_last {p : Nat} {ps : List Nat} (h : Chain next heap (some p) (p :: ps)) :
    ∀ fuel, ps.length < fuel → follow next heap fuel p = .ok ((p :: ps).getLast (by simp)) := by
  induction ps generalizing p with
  | nil =>
    obtain ⟨-, v, hv, htail⟩ := h
    have hnull : next v = none := htail
    intro fuel hfuel
    cases fuel with
    | zero => omega
    | succ fuel => simp [follow, hv, hnull]
  | cons q ps ih =>
    obtain ⟨-, v, hv, htail⟩ := h
    intro fuel hfuel
    cases fuel with
    | zero => omega
    | succ fuel =>
      have hnext : next v = some q := htail.1
      rw [hnext] at htail
      have hrest := ih htail fuel (by simpa using hfuel)
      simp only [follow, hv, hnext, hrest, List.getLast_cons (List.cons_ne_nil q ps)]

end Chain

/-- A stretch of a doubly linked list: it is entered from `before` at `start`,
visits `ps` in order, and leaves to `after`; every `prev` field names the node
visited before. -/
def Segment {ν : Type} (next prev : ν → Option Nat) (heap : List ν) :
    Option Nat → Option Nat → List Nat → Option Nat → Prop
  | _, start, [], after => start = after
  | before, start, p :: ps, after =>
    start = some p ∧ ∃ v, heap[p]? = some v ∧ prev v = before ∧
      Segment next prev heap (some p) (next v) ps after

/-- The node before what follows `ps`. -/
def lastOr (before : Option Nat) (ps : List Nat) : Option Nat := (ps.getLast?).or before

namespace Segment

variable {ν : Type} {next prev : ν → Option Nat} {heap : List ν}

theorem append_iff {before start after : Option Nat} {ps qs : List Nat} :
    Segment next prev heap before start (ps ++ qs) after ↔
      ∃ mid, Segment next prev heap before start ps mid ∧
        Segment next prev heap (lastOr before ps) mid qs after := by
  induction ps generalizing before start with
  | nil => simp [Segment, lastOr]
  | cons p ps ih =>
    have hlast : lastOr before (p :: ps) = lastOr (some p) ps := by
      unfold lastOr
      cases ps with
      | nil => rfl
      | cons q ps => simp [List.getLast?_cons]
    simp only [List.cons_append, Segment, ih, hlast]
    constructor
    · rintro ⟨hstart, v, hv, hprev, mid, hps, hqs⟩
      exact ⟨mid, ⟨hstart, v, hv, hprev, hps⟩, hqs⟩
    · rintro ⟨mid, ⟨hstart, v, hv, hprev, hps⟩, hqs⟩
      exact ⟨hstart, v, hv, hprev, mid, hps, hqs⟩

theorem chain {before start : Option Nat} {ps : List Nat}
    (h : Segment next prev heap before start ps none) : Chain next heap start ps := by
  induction ps generalizing before start with
  | nil => exact h
  | cons p ps ih =>
    obtain ⟨hstart, v, hv, -, htail⟩ := h
    exact ⟨hstart, v, hv, ih htail⟩

/-- A stretch depends only on the links of its own nodes. -/
theorem congr {heap' : List ν} {before start after : Option Nat} {ps : List Nat}
    (h : Segment next prev heap before start ps after)
    (hnext : ∀ p ∈ ps, (heap'[p]?).map next = (heap[p]?).map next)
    (hprev : ∀ p ∈ ps, (heap'[p]?).map prev = (heap[p]?).map prev) :
    Segment next prev heap' before start ps after := by
  induction ps generalizing before start with
  | nil => exact h
  | cons p ps ih =>
    obtain ⟨hstart, v, hv, hbefore, htail⟩ := h
    have hn := hnext p (by simp)
    have hp := hprev p (by simp)
    rw [hv, Option.map_some, Option.map_eq_some_iff] at hn
    obtain ⟨v', hv', hvn⟩ := hn
    rw [hv, hv', Option.map_some, Option.map_some, Option.some.injEq] at hp
    refine ⟨hstart, v', hv', hp.trans hbefore, ?_⟩
    rw [hvn]
    exact ih htail (fun q hq => hnext q (by simp [hq])) fun q hq => hprev q (by simp [hq])

/-- A stretch leads wherever the link of its last node does. -/
theorem relink_last {heap' : List ν} {before start after after' : Option Nat} {ps : List Nat} {t : Nat}
    (h : Segment next prev heap before start (ps ++ [t]) after)
    (hnext : ∀ p ∈ ps, (heap'[p]?).map next = (heap[p]?).map next)
    (hprev : ∀ p ∈ ps ++ [t], (heap'[p]?).map prev = (heap[p]?).map prev)
    (htail : (heap'[t]?).map next = some after') : Segment next prev heap' before start (ps ++ [t]) after' := by
  obtain ⟨mid, hfront, hmid, u, hu, hprevu, -⟩ := append_iff.mp h
  refine append_iff.mpr ⟨mid, ?_, hmid, ?_⟩
  · exact hfront.congr hnext fun p hp => hprev p (List.mem_append_left _ hp)
  · obtain ⟨u', hu', hnextu⟩ := Option.map_eq_some_iff.mp htail
    have hsame := hprev t (by simp)
    rw [hu, hu', Option.map_some, Option.map_some, Option.some.injEq] at hsame
    exact ⟨u', hu', hsame.trans hprevu, hnextu⟩

/-- A stretch may be entered from wherever its first node leads back to. -/
theorem relink_head {heap' : List ν} {before before' start after : Option Nat} {ps : List Nat}
    (h : Segment next prev heap before start ps after)
    (hnext : ∀ p ∈ ps, (heap'[p]?).map next = (heap[p]?).map next)
    (hprev : ∀ p ∈ ps.tail, (heap'[p]?).map prev = (heap[p]?).map prev)
    (hhead : ∀ p ∈ ps.head?, (heap'[p]?).map prev = some before') :
    Segment next prev heap' before' start ps after := by
  cases ps with
  | nil => exact h
  | cons p ps =>
    obtain ⟨hstart, v, hv, -, htail⟩ := h
    obtain ⟨v', hv', hback⟩ := Option.map_eq_some_iff.mp (hhead p rfl)
    have hsame := hnext p (by simp)
    rw [hv, hv', Option.map_some, Option.map_some, Option.some.injEq] at hsame
    refine ⟨hstart, v', hv', hback, ?_⟩
    rw [hsame]
    exact htail.congr (fun q hq => hnext q (by simp [hq])) hprev

/-- Linking a node behind the last one extends the list by it. -/
theorem snoc {heap' : List ν} {before start : Option Nat} {ps : List Nat} {t q : Nat} {v : ν}
    (h : Segment next prev heap before start (ps ++ [t]) none)
    (hnext : ∀ p ∈ ps, (heap'[p]?).map next = (heap[p]?).map next)
    (hprev : ∀ p ∈ ps ++ [t], (heap'[p]?).map prev = (heap[p]?).map prev)
    (htail : (heap'[t]?).map next = some (some q)) (hv : heap'[q]? = some v) (hback : prev v = some t)
    (hend : next v = none) : Segment next prev heap' before start (ps ++ [t] ++ [q]) none := by
  refine append_iff.mpr ⟨some q, h.relink_last hnext hprev htail, rfl, v, hv, ?_, hend⟩
  rw [hback]
  simp [lastOr]

/-- Linking the neighbours of a node with each other takes it out of the list. -/
theorem remove {heap' : List ν} {before start : Option Nat} {ps qs : List Nat} {t p : Nat} {v : ν}
    (h : Segment next prev heap before start (ps ++ [t] ++ p :: qs) none) (hv : heap[p]? = some v)
    (hnext : ∀ r ∈ ps ++ qs, (heap'[r]?).map next = (heap[r]?).map next)
    (hprev : ∀ r ∈ ps ++ [t] ++ qs.tail, (heap'[r]?).map prev = (heap[r]?).map prev)
    (htail : (heap'[t]?).map next = some (next v)) (hhead : ∀ q ∈ qs.head?, (heap'[q]?).map prev = some (some t)) :
    Segment next prev heap' before start (ps ++ [t] ++ qs) none := by
  obtain ⟨mid, hfront, hmid, u, hu, -, hback⟩ := append_iff.mp h
  have huv : u = v := Option.some.inj (hu.symm.trans hv)
  subst huv
  refine append_iff.mpr ⟨next u, hfront.relink_last ?_ ?_ htail, ?_⟩
  · exact fun r hr => hnext r (List.mem_append_left _ hr)
  · exact fun r hr => hprev r (List.mem_append_left _ hr)
  · refine hback.relink_head (fun r hr => hnext r (List.mem_append_right _ hr))
      (fun r hr => hprev r (List.mem_append_right _ hr)) ?_
    simpa [lastOr] using hhead

theorem lt_length {before start after : Option Nat} {ps : List Nat}
    (h : Segment next prev heap before start ps after) : ∀ p ∈ ps, p < heap.length := by
  induction ps generalizing before start with
  | nil => simp
  | cons q ps ih =>
    obtain ⟨-, v, hv, -, htail⟩ := h
    intro p hp
    obtain rfl | hp := List.mem_cons.mp hp
    · exact (List.getElem?_eq_some_iff.mp hv).1
    · exact ih htail p hp

/-- Following `prev` from any node of a list whose head has none leads to the head. -/
theorem follow_prev {p q : Nat} {ps qs : List Nat} {after : Option Nat}
    (h : Segment next prev heap none (some p) (p :: ps) after) (hsplit : p :: ps = qs ++ [q]) :
    ∀ fuel, qs.length < fuel → follow prev heap fuel q = .ok p := by
  induction qs using List.reverseRecOn generalizing q ps after with
  | nil =>
    obtain ⟨-, v, hv, hprev, -⟩ := h
    simp only [List.nil_append, List.cons.injEq] at hsplit
    obtain ⟨rfl, rfl⟩ := hsplit
    intro fuel hfuel
    cases fuel with
    | zero => omega
    | succ fuel => simp [follow, hv, hprev]
  | append_singleton rs r ih =>
    rw [hsplit] at h
    obtain ⟨mid, hfront, -, v, hv, hprev, -⟩ := append_iff.mp h
    have hbefore : lastOr none (rs ++ [r]) = some r := by simp [lastOr]
    rw [hbefore] at hprev
    intro fuel hfuel
    cases fuel with
    | zero => simp at hfuel
    | succ fuel =>
      cases rs with
      | nil =>
        have hr : p = r := by simpa using congrArg List.head? hsplit
        subst hr
        have hstep : follow prev heap fuel p = .ok p := ih hfront rfl fuel (by simpa using hfuel)
        simp [follow, hv, hprev, hstep]
      | cons s rs =>
        have hs : p = s := by simpa using congrArg List.head? hsplit
        subst hs
        have hstep : follow prev heap fuel r = .ok p := ih hfront rfl fuel (by simpa using hfuel)
        simp [follow, hv, hprev, hstep]

/-- The length of a list is fuel enough to walk back from any of its nodes. -/
theorem follow_prev_of_mem {p q : Nat} {ps : List Nat} {after : Option Nat} {fuel : Nat}
    (h : Segment next prev heap none (some p) (p :: ps) after) (hq : q ∈ p :: ps) (hfuel : (p :: ps).length ≤ fuel) :
    follow prev heap fuel q = .ok p := by
  obtain ⟨qs, rest, hsplit⟩ := List.append_of_mem hq
  have hlt : qs.length < fuel := by
    rw [hsplit, List.length_append, List.length_cons] at hfuel
    omega
  have hfront := h
  rw [hsplit, show qs ++ q :: rest = (qs ++ [q]) ++ rest by simp] at hfront
  obtain ⟨mid, hfront, -⟩ := append_iff.mp hfront
  cases qs with
  | nil =>
    have hpq : p = q := by simpa using congrArg List.head? hsplit
    subst hpq
    exact follow_prev hfront rfl _ hlt
  | cons r rs =>
    have hpr : p = r := by simpa using congrArg List.head? hsplit
    subst hpr
    exact follow_prev hfront rfl _ hlt

end Segment

end cmodel
