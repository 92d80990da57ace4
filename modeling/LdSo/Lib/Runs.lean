import Mathlib.Data.List.Basic
import Mathlib.Data.List.Chain

namespace cmodel

variable {α : Type}

/-- `rs` are the maximal non-empty runs of the elements of `l` that are no
separators, in order. -/
inductive Runs (sep : α → Prop) : List α → List (List α) → Prop where
  | nil : Runs sep [] []
  | skip {a l rs} (ha : sep a) (h : Runs sep l rs) : Runs sep (a :: l) rs
  | run {r l rs} (hne : r ≠ []) (hr : ∀ a ∈ r, ¬ sep a) (hend : ∀ a ∈ l.head?, sep a) (h : Runs sep l rs) :
      Runs sep (r ++ l) (r :: rs)

/-- A list has no empty piece between its separators: none of them is first, last
or next to another, and the list is not empty. -/
structure NoEmptyPiece (sep : α → Prop) (l : List α) : Prop where
  ne_nil : l ≠ []
  head : ∀ a ∈ l.head?, ¬ sep a
  last : ∀ a ∈ l.getLast?, ¬ sep a
  apart : l.IsChain fun a b => ¬ (sep a ∧ sep b)

section Runs

variable {sep : α → Prop} {l : List α} {rs : List (List α)}

theorem Runs.cons {a : α} (ha : ¬ sep a) (h : Runs sep l rs) : ∃ rs', Runs sep (a :: l) rs' := by
  cases h with
  | nil => exact ⟨[[a]], .run (r := [a]) (l := []) (by simp) (by simpa using ha) (by simp) .nil⟩
  | skip hb h =>
    refine ⟨[a] :: rs, .run (r := [a]) (by simp) (by simpa using ha) ?_ (.skip hb h)⟩
    rintro c ⟨⟩
    exact hb
  | run hne hr hend h => exact ⟨_, .run (r := a :: _) (by simp) (List.forall_mem_cons.mpr ⟨ha, hr⟩) hend h⟩

variable [DecidablePred sep]

theorem splitOnP_cons_sep {a : α} (ha : sep a) : (a :: l).splitOnP (sep ·) = [] :: l.splitOnP (sep ·) := by
  rw [List.splitOnP_cons_eq_if_modifyHead, if_pos (by simpa using ha)]

theorem splitOnP_cons_other {a : α} (ha : ¬ sep a) :
    (a :: l).splitOnP (sep ·) = (l.splitOnP (sep ·)).modifyHead (List.cons a) := by
  rw [List.splitOnP_cons_eq_if_modifyHead, if_neg (by simpa using ha)]

theorem Runs.exists (sep : α → Prop) [DecidablePred sep] (l : List α) : ∃ rs, Runs sep l rs := by
  induction l with
  | nil => exact ⟨[], .nil⟩
  | cons a l ih =>
    obtain ⟨rs, h⟩ := ih
    by_cases ha : sep a
    · exact ⟨rs, .skip ha h⟩
    · exact h.cons ha

/-- The runs are the pieces between the separators that are not empty. -/
theorem Runs.eq_pieces (h : Runs sep l rs) : rs = (l.splitOnP (sep ·)).filter (· ≠ []) := by
  induction h with
  | nil => rfl
  | skip ha h ih => rw [splitOnP_cons_sep ha, ih, List.filter_cons_of_neg (by simp)]
  | @run r l rs hne hr hend h ih =>
    have hr' : ∀ a ∈ r, decide (sep a) = false := by simpa using hr
    cases l with
    | nil =>
      rw [List.append_nil, List.splitOnP_eq_singleton hr', ih]
      simp [hne]
    | cons b l =>
      have hb : sep b := hend b rfl
      rw [List.splitOnP_append_cons_of_forall_mem hr' b (by simpa using hb),
        List.filter_cons_of_pos (by simpa using hne), ih, splitOnP_cons_sep hb, List.filter_cons_of_neg (by simp)]

theorem runs_iff_pieces : Runs sep l rs ↔ rs = (l.splitOnP (sep ·)).filter (· ≠ []) := by
  constructor
  · exact Runs.eq_pieces
  · rintro rfl
    obtain ⟨rs, h⟩ := Runs.exists sep l
    exact h.eq_pieces ▸ h

/-- The first piece is empty when there is nothing in front of the first separator. -/
theorem head_splitOnP_eq_nil_iff : (l.splitOnP (sep ·)).head? = some [] ↔ ∀ a ∈ l.head?, sep a := by
  cases l with
  | nil => simp
  | cons a l =>
    by_cases ha : sep a
    · simp [splitOnP_cons_sep ha, ha]
    · cases h : l.splitOnP (sep ·) with
      | nil => exact absurd h (List.splitOnP_ne_nil _ _)
      | cons p ps => simp [splitOnP_cons_other ha, h, ha]

/-- What the pieces behind the first one say about the separators. -/
theorem nil_notMem_tail_splitOnP : [] ∉ (l.splitOnP (sep ·)).tail ↔
    (∀ a ∈ l.getLast?, ¬ sep a) ∧ l.IsChain fun a b => ¬ (sep a ∧ sep b) := by
  induction l with
  | nil => simp
  | cons a l ih =>
    cases hp : l.splitOnP (sep ·) with
    | nil => exact absurd hp (List.splitOnP_ne_nil _ _)
    | cons p ps =>
      have hhead : (l.splitOnP (sep ·)).head? = some [] ↔ ∀ b ∈ l.head?, sep b := head_splitOnP_eq_nil_iff
      rw [hp, List.head?_cons, Option.some.injEq] at hhead
      rw [hp, List.tail_cons] at ih
      by_cases ha : sep a
      · rw [splitOnP_cons_sep ha, List.tail_cons, hp, List.mem_cons, not_or, ih]
        cases l with
        | nil => simp [hhead.mpr (by simp), ha]
        | cons b l =>
          have hb : ¬ [] = p ↔ ¬ sep b := by
            rw [eq_comm, hhead]
            simp
          rw [hb, List.isChain_cons_cons, List.getLast?_cons_cons]
          tauto
      · rw [splitOnP_cons_other ha, hp, List.modifyHead_cons, List.tail_cons, ih]
        cases l with
        | nil => simp [ha]
        | cons b l =>
          rw [List.isChain_cons_cons, List.getLast?_cons_cons]
          tauto

theorem nil_notMem_splitOnP : [] ∉ l.splitOnP (sep ·) ↔ NoEmptyPiece sep l := by
  cases hp : l.splitOnP (sep ·) with
  | nil => exact absurd hp (List.splitOnP_ne_nil _ _)
  | cons p ps =>
    have hhead : (l.splitOnP (sep ·)).head? = some [] ↔ ∀ a ∈ l.head?, sep a := head_splitOnP_eq_nil_iff
    have htail : [] ∉ (l.splitOnP (sep ·)).tail ↔ _ := nil_notMem_tail_splitOnP
    rw [hp, List.head?_cons, Option.some.injEq] at hhead
    rw [hp, List.tail_cons] at htail
    rw [List.mem_cons, not_or, htail, ← ne_eq, ne_comm, ne_eq, hhead]
    constructor
    · rintro ⟨hfirst, hlast, hchain⟩
      cases l with
      | nil => simp at hfirst
      | cons a l => exact ⟨by simp, by simpa using hfirst, hlast, hchain⟩
    · rintro ⟨hne, hfirst, hlast, hchain⟩
      cases l with
      | nil => exact absurd rfl hne
      | cons a l => exact ⟨by simpa using hfirst, hlast, hchain⟩

/-- Splitting at the separators gives the runs exactly when no piece is empty. -/
theorem runs_splitOnP_iff : Runs sep l (l.splitOnP (sep ·)) ↔ NoEmptyPiece sep l := by
  rw [runs_iff_pieces, eq_comm, List.filter_eq_self, ← nil_notMem_splitOnP]
  constructor
  · intro h hmem
    simpa using h [] hmem
  · intro h piece hmem
    rw [decide_eq_true_eq]
    rintro rfl
    exact h hmem

end Runs

end cmodel
