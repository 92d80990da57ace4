import Mathlib.Data.List.Chain
import Mathlib.Data.List.Nodup
import Mathlib.Logic.Function.Basic

namespace cmodel

variable {α : Type}

/-- Two nodes that point at one another. -/
def Linked (fd bk : α → α) (a c : α) : Prop := fd a = c ∧ bk c = a

/-- A circular list that is linked both ways: from `b` through the nodes of the list
and back to `b`. -/
def IsRing (fd bk : α → α) (b : α) (qs : List α) : Prop := (b :: (qs ++ [b])).IsChain (Linked fd bk)

variable {fd bk fd' bk' : α → α} {b p : α} {qs ys zs l : List α}

/-- A chain of links reads the forward links of all nodes but the last and the
backward links of all but the first. -/
theorem isChain_linked_congr (h : l.IsChain (Linked fd bk)) (hfd : ∀ a ∈ l.dropLast, fd' a = fd a)
    (hbk : ∀ c ∈ l.tail, bk' c = bk c) : l.IsChain (Linked fd' bk') := by
  induction l with
  | nil => exact List.isChain_nil
  | cons a rest ih =>
    cases rest with
    | nil => exact List.isChain_singleton a
    | cons c rest =>
      obtain ⟨⟨hfwd, hback⟩, hrest⟩ := List.isChain_cons_cons.mp h
      refine List.isChain_cons_cons.mpr ⟨⟨?_, ?_⟩, ih hrest ?_ ?_⟩
      · rw [hfd a (by simp), hfwd]
      · rw [hbk c (by simp), hback]
      · intro d hd
        exact hfd d (by rw [List.dropLast_cons_cons]; exact List.mem_cons_of_mem _ hd)
      · intro d hd
        exact hbk d (List.mem_cons_of_mem _ hd)

namespace IsRing

/-- A ring reads the links of its nodes. -/
theorem congr (h : IsRing fd bk b qs) (hfd : ∀ a ∈ b :: qs, fd' a = fd a) (hbk : ∀ a ∈ b :: qs, bk' a = bk a) :
    IsRing fd' bk' b qs := by
  refine isChain_linked_congr h ?_ ?_
  · intro a ha
    rw [← List.cons_append, List.dropLast_concat] at ha
    exact hfd a ha
  · intro c hc
    rw [List.tail_cons, List.mem_append, List.mem_singleton] at hc
    exact hbk c (by rw [List.mem_cons]; exact hc.symm)

theorem nil_iff : IsRing fd bk b [] ↔ fd b = b ∧ bk b = b := by simp [IsRing, Linked]

/-- Any node may be the first. -/
theorem rotate {a : α} {front back : List α} (h : IsRing fd bk b qs) (hsplit : b :: qs = front ++ a :: back) :
    IsRing fd bk a (back ++ front) := by
  cases front with
  | nil =>
    obtain ⟨rfl, rfl⟩ := List.cons.inj hsplit
    simpa using h
  | cons c front =>
    obtain ⟨rfl, hqs⟩ := List.cons.inj hsplit
    have hcat : qs = front ++ a :: back := hqs
    subst hcat
    have hleft : b :: (front ++ a :: back ++ [b]) = (b :: front) ++ a :: (back ++ [b]) := by simp
    have hright : a :: (back ++ b :: front ++ [a]) = (a :: back) ++ b :: (front ++ [a]) := by simp
    unfold IsRing at h ⊢
    rw [hleft, List.isChain_split] at h
    rw [hright, List.isChain_split]
    exact ⟨by simpa using h.2, by simpa using h.1⟩

/-- The first node's links, and those back to it. -/
theorem first (h : IsRing fd bk b qs) : fd b = (qs ++ [b]).head (by simp) ∧ bk b = (b :: qs).getLast (by simp) ∧
    bk (fd b) = b ∧ fd (bk b) = b := by
  obtain ⟨f, rest, hrest⟩ : ∃ f rest, qs ++ [b] = f :: rest := List.exists_cons_of_ne_nil (by simp)
  have hforward : fd b = f ∧ bk f = b := by
    rw [IsRing, hrest] at h
    exact (List.isChain_cons_cons.mp h).1
  have hback : fd ((b :: qs).getLast (by simp)) = b ∧ bk b = (b :: qs).getLast (by simp) := by
    have hlist : b :: (qs ++ [b]) = (b :: qs).dropLast ++ (b :: qs).getLast (by simp) :: [b] := by
      rw [← List.singleton_append (l := [b]), ← List.append_assoc, List.dropLast_append_getLast, List.cons_append]
    rw [IsRing, hlist, List.isChain_append] at h
    exact (List.isChain_cons_cons.mp h.2.1).1
  refine ⟨?_, hback.2, ?_, ?_⟩
  · simp only [hrest, List.head_cons, hforward.1]
  · rw [hforward.1, hforward.2]
  · rw [hback.2, hback.1]

theorem fd_mem (h : IsRing fd bk b qs) {a : α} (ha : a ∈ b :: qs) : fd a ∈ b :: qs := by
  obtain ⟨front, back, hsplit⟩ := List.append_of_mem ha
  have hmem := List.head_mem (l := back ++ front ++ [a]) (by simp)
  rw [(h.rotate hsplit).first.1, hsplit]
  simp only [List.mem_append, List.mem_cons, List.not_mem_nil, or_false] at hmem ⊢
  tauto

theorem bk_mem (h : IsRing fd bk b qs) {a : α} (ha : a ∈ b :: qs) : bk a ∈ b :: qs := by
  obtain ⟨front, back, hsplit⟩ := List.append_of_mem ha
  have hmem := List.getLast_mem (l := a :: (back ++ front)) (by simp)
  rw [(h.rotate hsplit).first.2.1, hsplit]
  simp only [List.mem_append, List.mem_cons] at hmem ⊢
  tauto

/-- Every node is the next one's previous one and the previous one's next one. -/
theorem linked (h : IsRing fd bk b qs) {a : α} (ha : a ∈ b :: qs) : bk (fd a) = a ∧ fd (bk a) = a := by
  obtain ⟨front, back, hsplit⟩ := List.append_of_mem ha
  exact (h.rotate hsplit).first.2.2

variable [DecidableEq α]

/-- A node is put behind the first one. -/
theorem insert (h : IsRing fd bk b qs) (hnodup : (b :: qs).Nodup) (hp : p ∉ b :: qs) :
    IsRing (Function.update (Function.update fd b p) p (fd b)) (Function.update (Function.update bk (fd b) p) p b) b
      (p :: qs) := by
  have hpb : p ≠ b := fun heq => hp (heq ▸ List.mem_cons_self)
  obtain ⟨hb, hqs⟩ := List.nodup_cons.mp hnodup
  obtain ⟨f, rest, hrest⟩ : ∃ f rest, qs ++ [b] = f :: rest := List.exists_cons_of_ne_nil (by simp)
  have hf : f ∉ rest := by
    have hnodup' : (qs ++ [b]).Nodup := by
      rw [List.nodup_append]
      exact ⟨hqs, List.nodup_singleton b, by rintro a ha _ hb' rfl; exact hb (List.mem_singleton.mp hb' ▸ ha)⟩
    rw [hrest] at hnodup'
    exact (List.nodup_cons.mp hnodup').1
  have hpmem : p ∉ f :: rest := by
    rw [← hrest]
    simpa [or_comm] using hp
  unfold IsRing at h ⊢
  rw [List.cons_append]
  rw [hrest] at h ⊢
  obtain ⟨⟨hfwd, -⟩, hchain⟩ := List.isChain_cons_cons.mp h
  have hpf : f ≠ p := fun heq => hpmem (heq ▸ List.mem_cons_self)
  refine List.isChain_cons_cons.mpr ⟨⟨?_, ?_⟩, List.isChain_cons_cons.mpr ⟨⟨?_, ?_⟩, isChain_linked_congr hchain ?_ ?_⟩⟩
  · rw [Function.update_of_ne hpb.symm, Function.update_self]
  · rw [Function.update_self]
  · rw [Function.update_self, hfwd]
  · rw [Function.update_of_ne hpf, hfwd, Function.update_self]
  · intro a ha
    have hmem : a ∈ qs := by rwa [← hrest, List.dropLast_concat] at ha
    have hap : a ≠ p := fun heq => hp (heq ▸ List.mem_cons_of_mem _ hmem)
    have hab : a ≠ b := fun heq => hb (heq ▸ hmem)
    rw [Function.update_of_ne hap, Function.update_of_ne hab]
  · intro c hc
    rw [List.tail_cons] at hc
    have hcp : c ≠ p := fun heq => hpmem (heq ▸ List.mem_cons_of_mem _ hc)
    have hcf : c ≠ f := fun heq => hf (heq ▸ hc)
    rw [Function.update_of_ne hcp, hfwd, Function.update_of_ne hcf]

/-- A node that is not the first one is taken out. -/
theorem remove (h : IsRing fd bk b (ys ++ p :: zs)) (hnodup : (b :: (ys ++ p :: zs)).Nodup) :
    IsRing (Function.update fd (bk p) (fd p)) (Function.update bk (fd p) (bk p)) b (ys ++ zs) := by
  have hrotate : IsRing fd bk p (zs ++ b :: ys) := h.rotate (by simp)
  have hfirst := hrotate.first
  have hlast : bk p = (b :: ys).getLast (by simp) := by
    rw [hfirst.2.1, List.getLast_cons (by simp), List.getLast_append_of_ne_nil]
  have hhead : fd p = (zs ++ [b]).head (by simp) := by
    rw [hfirst.1]
    cases zs <;> rfl
  have hsplit : b :: (ys ++ p :: zs ++ [b]) = (b :: ys) ++ p :: (zs ++ [b]) := by simp
  have hdis : (b :: ys).Nodup ∧ (p :: zs).Nodup ∧ ∀ x ∈ b :: ys, ∀ y ∈ p :: zs, x ≠ y := by
    rw [← List.cons_append, List.nodup_append] at hnodup
    exact hnodup
  obtain ⟨hfront, hback, hapart⟩ := hdis
  rw [IsRing, hsplit, List.isChain_append] at h
  obtain ⟨hchain, hrest, -⟩ := h
  obtain ⟨f, rest, hf⟩ : ∃ f rest, zs ++ [b] = f :: rest := List.exists_cons_of_ne_nil (by simp)
  rw [hf, List.isChain_cons_cons] at hrest
  simp only [hf, List.head_cons] at hhead
  have hlist : b :: (ys ++ zs ++ [b]) = (b :: ys) ++ (zs ++ [b]) := by simp
  have hfmem : f ∈ zs ++ [b] := hf ▸ List.mem_cons_self
  have hlastmem : bk p ∈ b :: ys := hlast ▸ List.getLast_mem _
  rw [IsRing, hlist, hf, List.isChain_append]
  refine ⟨isChain_linked_congr hchain ?_ ?_, isChain_linked_congr hrest.2 ?_ ?_, ?_⟩
  · intro a ha
    refine Function.update_of_ne ?_ _ _
    rintro rfl
    have hcat := List.dropLast_append_getLast (l := b :: ys) (by simp)
    rw [← hcat, List.nodup_append] at hfront
    exact hfront.2.2 _ ha _ (by simp) hlast
  · intro c hc
    rw [List.tail_cons] at hc
    refine Function.update_of_ne ?_ _ _
    rintro rfl
    rw [hhead] at hc
    obtain hzs | hb := List.mem_append.mp hfmem
    · exact hapart f (List.mem_cons_of_mem _ hc) f (List.mem_cons_of_mem _ hzs) rfl
    · rw [List.mem_singleton] at hb
      exact (List.nodup_cons.mp hfront).1 (hb ▸ hc)
  · intro a ha
    have hmem : a ∈ zs := by rwa [← hf, List.dropLast_concat] at ha
    refine Function.update_of_ne ?_ _ _
    rintro rfl
    exact hapart _ hlastmem _ (List.mem_cons_of_mem _ hmem) rfl
  · intro c hc
    rw [List.tail_cons] at hc
    refine Function.update_of_ne ?_ _ _
    rintro rfl
    rw [hhead] at hc
    have hnodup' : (zs ++ [b]).Nodup := by
      rw [List.nodup_append]
      refine ⟨(List.nodup_cons.mp hback).2, List.nodup_singleton b, ?_⟩
      intro x hx y hy
      rw [List.mem_singleton] at hy
      subst hy
      exact (hapart y List.mem_cons_self x (List.mem_cons_of_mem _ hx)).symm
    rw [hf] at hnodup'
    exact (List.nodup_cons.mp hnodup').1 hc
  · intro a ha c hc
    rw [List.head?_cons, Option.mem_some_iff] at hc
    subst hc
    rw [List.getLast?_eq_getLast_of_ne_nil (by simp), Option.mem_some_iff] at ha
    subst ha
    rw [← hlast, ← hhead]
    exact ⟨Function.update_self _ _ _, Function.update_self _ _ _⟩

end IsRing

end cmodel
