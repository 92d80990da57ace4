import Mathlib.Order.Defs.PartialOrder
import Mathlib.Order.Basic

namespace cmodel

/-- How a run of a C function ends: with a value, by `_exit`, in behaviour the
language or the hardware does not define (a read of unmapped or uninitialised
memory, a division by zero, a null dereference), or not at all. -/
inductive Outcome (α : Type) where
  | ok (value : α)
  | exit (code : Int)
  | fault
  | diverge
  deriving DecidableEq, Repr

namespace Outcome

variable {α β : Type}

/-- Sequencing: only a value is passed on, every other end stops the run. -/
protected def bind (x : Outcome α) (f : α → Outcome β) : Outcome β :=
  match x with
  | ok a => f a
  | exit code => exit code
  | fault => fault
  | diverge => diverge

instance : Monad Outcome where
  pure := ok
  bind := Outcome.bind

@[simp] theorem pure_eq (a : α) : (pure a : Outcome α) = ok a := rfl

@[simp] theorem ok_bind (a : α) (f : α → Outcome β) : (ok a >>= f) = f a := rfl

@[simp] theorem exit_bind (code : Int) (f : α → Outcome β) : (exit code >>= f) = exit code := rfl

@[simp] theorem fault_bind (f : α → Outcome β) : (fault >>= f) = fault := rfl

@[simp] theorem diverge_bind (f : α → Outcome β) : (diverge >>= f) = diverge := rfl

instance : LawfulMonad Outcome := LawfulMonad.mk' Outcome
  (by intro α x; cases x <;> rfl)
  (by intros; rfl)
  (by intro α β γ x f g; cases x <;> rfl)

/-- A sequence returns exactly when its first part returns a value from which
the rest returns. -/
theorem bind_eq_ok_iff {x : Outcome α} {f : α → Outcome β} {b : β} :
    (x >>= f) = ok b ↔ ∃ a, x = ok a ∧ f a = ok b := by
  cases x <;> simp

/-- Looking at a result does not change how a run ends the process. -/
theorem bind_ok_eq_exit_iff {x : Outcome α} {f : α → β} {code : Int} :
    (x >>= fun a => ok (f a)) = exit code ↔ x = exit code := by
  cases x <;> simp

theorem bind_ok_eq_diverge_iff {x : Outcome α} {f : α → β} :
    (x >>= fun a => ok (f a)) = diverge ↔ x = diverge := by
  cases x <;> simp

/-- A check that ends the process is passed by every run that returns. -/
theorem ite_exit_eq_ok_iff {p : Prop} [Decidable p] {code : Int} {a b : α} :
    (if p then exit code else ok a) = ok b ↔ ¬ p ∧ a = b := by
  split <;> simp [*]

/-- An undefined access for an absent value. -/
def ofOption : Option α → Outcome α
  | some a => ok a
  | none => fault

@[simp] theorem ofOption_some (a : α) : ofOption (some a) = ok a := rfl

@[simp] theorem ofOption_none : ofOption (none : Option α) = fault := rfl

theorem ofOption_eq_ok_iff {x : Option α} {a : α} : ofOption x = ok a ↔ x = some a := by
  cases x <;> simp

/-- Definedness order: a run that faults may be completed in any way, and any
other end is final. Giving a program more readable memory moves its outcome
upwards in this order only. -/
instance : PartialOrder (Outcome α) where
  le x y := x = fault ∨ x = y
  le_refl x := Or.inr rfl
  le_trans x y z hxy hyz := by
    obtain rfl | rfl := hxy
    · exact Or.inl rfl
    · exact hyz
  le_antisymm x y hxy hyx := by
    obtain rfl | rfl := hxy
    · obtain h | h := hyx <;> exact h.symm
    · rfl

@[simp] theorem fault_le (x : Outcome α) : fault ≤ x := Or.inl rfl

/-- Values survive when a run becomes more defined. -/
theorem eq_ok_of_le {x y : Outcome α} {a : α} (hle : x ≤ y) (hx : x = ok a) : y = ok a := by
  obtain h | h := hle
  · rw [hx] at h
    cases h
  · exact h ▸ hx

/-- Sequencing is monotone in both of its parts. -/
theorem bind_le_bind {x y : Outcome α} {f g : α → Outcome β}
    (hxy : x ≤ y) (hfg : ∀ a, f a ≤ g a) : (x >>= f) ≤ (y >>= g) := by
  obtain rfl | rfl := hxy
  · exact fault_le _
  · cases x with
    | ok a => exact hfg a
    | exit code => exact le_rfl
    | fault => exact le_rfl
    | diverge => exact le_rfl

theorem bind_le_bind_right (x : Outcome α) {f g : α → Outcome β}
    (hfg : ∀ a, f a ≤ g a) : (x >>= f) ≤ (x >>= g) :=
  bind_le_bind le_rfl hfg

theorem ite_le_ite {p : Prop} [Decidable p] {x x' y y' : Outcome α}
    (hx : x ≤ x') (hy : y ≤ y') : (if p then x else y) ≤ (if p then x' else y') := by
  by_cases hp : p
  · simpa only [if_pos hp] using hx
  · simpa only [if_neg hp] using hy

end Outcome

end cmodel
