import LdSo.Lib.Outcome

namespace cmodel

variable {σ α β : Type}

/-- The run of `x` from the state `s` ends as `y` does; when both return, they
return the same value, and with the last state it meets `Q`. -/
def Simulates (x : StateT σ Outcome α) (s : σ) (y : Outcome α) (Q : α → σ → Prop) : Prop :=
  match y with
  | .ok a => ∃ s', x s = .ok (a, s') ∧ Q a s'
  | .exit code => x s = .exit code
  | .fault => x s = .fault
  | .diverge => x s = .diverge

theorem run_bind (x : StateT σ Outcome α) (f : α → StateT σ Outcome β) (s : σ) :
    (x >>= f) s = x s >>= fun r => f r.1 r.2 := rfl

namespace Simulates

variable {x : StateT σ Outcome α} {y : Outcome α} {s : σ} {Q : α → σ → Prop}

theorem of_returns (h : Simulates x s y Q) {a : α} {s' : σ} (hx : x s = .ok (a, s')) : y = .ok a ∧ Q a s' := by
  cases y with
  | ok b =>
    obtain ⟨t, ht, hQ⟩ := h
    rw [hx] at ht
    cases ht
    exact ⟨rfl, hQ⟩
  | exit code => exact nomatch hx.symm.trans h
  | fault => exact nomatch hx.symm.trans h
  | diverge => exact nomatch hx.symm.trans h

theorem returns {a : α} (h : Simulates x s y Q) (hy : y = .ok a) : ∃ s', x s = .ok (a, s') ∧ Q a s' := by
  subst hy
  exact h

theorem mono {R : α → σ → Prop} (h : Simulates x s y Q) (hQR : ∀ a s', Q a s' → R a s') : Simulates x s y R := by
  cases y with
  | ok a =>
    obtain ⟨s', hx, hQ⟩ := h
    exact ⟨s', hx, hQR a s' hQ⟩
  | exit code => exact h
  | fault => exact h
  | diverge => exact h

theorem pure {a : α} (h : Q a s) : Simulates (pure a) s (.ok a) Q := ⟨s, rfl, h⟩

theorem bind {f : α → StateT σ Outcome β} {g : α → Outcome β} {R : β → σ → Prop} (h : Simulates x s y Q)
    (hf : ∀ a s', Q a s' → Simulates (f a) s' (g a) R) : Simulates (x >>= f) s (y >>= g) R := by
  cases y with
  | ok a =>
    obtain ⟨s', hx, hQ⟩ := h
    have hrest := hf a s' hQ
    unfold Simulates at hrest ⊢
    rw [run_bind, hx]
    exact hrest
  | exit code =>
    change (x >>= f) s = .exit code
    rw [run_bind, h]
    rfl
  | fault =>
    change (x >>= f) s = .fault
    rw [run_bind, h]
    rfl
  | diverge =>
    change (x >>= f) s = .diverge
    rw [run_bind, h]
    rfl

/-- A first part that does not touch the state. -/
theorem bind_lift {y : Outcome α} {f : α → StateT σ Outcome β} {g : α → Outcome β} {R : β → σ → Prop}
    (hf : ∀ a, y = .ok a → Simulates (f a) s (g a) R) : Simulates (liftM y >>= f) s (y >>= g) R := by
  cases y with
  | ok a => exact hf a rfl
  | exit code => rfl
  | fault => rfl
  | diverge => rfl

/-- A first part that has no counterpart. -/
theorem step {f : α → StateT σ Outcome β} {y : Outcome β} {R : β → σ → Prop} {a : α} {s' : σ} (hx : x s = .ok (a, s'))
    (hf : Simulates (f a) s' y R) : Simulates (x >>= f) s y R := by
  unfold Simulates at hf ⊢
  rw [run_bind, hx]
  exact hf

end Simulates

end cmodel
