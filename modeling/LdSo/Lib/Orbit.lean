import Mathlib.Data.Finset.Card
import Mathlib.Data.Finset.Image
import Mathlib.Combinatorics.Pigeonhole

namespace cmodel

/-- A sequence each of whose terms determines the next. -/
def Deterministic {α : Type} (seq : Nat → α) : Prop := ∀ a b, seq a = seq b → seq (a + 1) = seq (b + 1)

namespace Deterministic

variable {α : Type} {seq : Nat → α} {P : α → Prop}

theorem shift (h : Deterministic seq) {a b : Nat} (hab : seq a = seq b) (n : Nat) : seq (a + n) = seq (b + n) := by
  induction n with
  | zero => exact hab
  | succ n ih => exact h _ _ ih

/-- Once a term comes back, no new terms follow. -/
theorem forall_of_repeat (h : Deterministic seq) {a b : Nat} (hlt : a < b) (hab : seq a = seq b)
    (hP : ∀ k < b, P (seq k)) (k : Nat) : P (seq k) := by
  induction k using Nat.strong_induction_on with
  | _ k ih =>
    by_cases hk : k < b
    · exact hP k hk
    · have hback := h.shift hab (k - b)
      rw [Nat.add_sub_cancel' (Nat.le_of_not_lt hk)] at hback
      rw [← hback]
      exact ih _ (by omega)

/-- A sequence with more terms in a finite set than the set has elements never
leaves it. -/
theorem forall_of_card (h : Deterministic seq) (s : Finset α) (hs : ∀ x, P x → x ∈ s)
    (hP : ∀ k ≤ s.card, P (seq k)) (k : Nat) : P (seq k) := by
  classical
  have hmaps : ∀ n ∈ Finset.range (s.card + 1), seq n ∈ s := by
    intro n hn
    exact hs _ (hP n (Nat.le_of_lt_succ (Finset.mem_range.mp hn)))
  obtain ⟨a, ha, b, hb, hne, hab⟩ :=
    Finset.exists_ne_map_eq_of_card_lt_of_maps_to (by simp) hmaps
  rw [Finset.mem_range] at ha hb
  obtain hlt | hlt := Nat.lt_or_gt_of_ne hne
  · exact h.forall_of_repeat hlt hab (fun k hk => hP k (by omega)) k
  · exact h.forall_of_repeat hlt hab.symm (fun k hk => hP k (by omega)) k

end Deterministic

end cmodel
