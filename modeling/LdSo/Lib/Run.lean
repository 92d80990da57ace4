import LdSo.Lib.Outcome

namespace cmodel

variable {σ α : Type} {step : σ → α → Outcome σ}

/-- Calls made one after another, each in the state the last one left. -/
def run (step : σ → α → Outcome σ) : List α → σ → Outcome σ
  | [], s => .ok s
  | a :: as, s => do
    let s ← step s a
    run step as s

/-- Every call of the run is made in a state where `P` holds of it. -/
def Along (step : σ → α → Outcome σ) (P : σ → α → Prop) : List α → σ → Prop
  | [], _ => True
  | a :: as, s => P s a ∧ ∀ s', step s a = .ok s' → Along step P as s'

/-- What every call keeps holds after every run. -/
theorem run_invariant {P : σ → α → Prop} {Inv : σ → Prop}
    (hstep : ∀ s a s', Inv s → P s a → step s a = .ok s' → Inv s') {as : List α} {s s' : σ} (hinv : Inv s)
    (halong : Along step P as s) (hrun : run step as s = .ok s') : Inv s' := by
  induction as generalizing s with
  | nil =>
    cases hrun
    exact hinv
  | cons a as ih =>
    obtain ⟨t, hcall, hrun⟩ := Outcome.bind_eq_ok_iff.mp hrun
    exact ih (hstep s a t hinv halong.1 hcall) (halong.2 t hcall) hrun

/-- What holds of every call made in a state of the invariant holds along every run. -/
theorem Along.of_invariant {P Q : σ → α → Prop} {Inv : σ → Prop}
    (hstep : ∀ s a s', Inv s → P s a → step s a = .ok s' → Inv s') (hcall : ∀ s a, Inv s → P s a → Q s a)
    {as : List α} {s : σ} (hinv : Inv s) (halong : Along step P as s) : Along step Q as s := by
  induction as generalizing s with
  | nil => trivial
  | cons a as ih =>
    refine ⟨hcall s a hinv halong.1, ?_⟩
    intro t ht
    exact ih (hstep s a t hinv halong.1 ht) (halong.2 t ht)

end cmodel
