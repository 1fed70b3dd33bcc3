import Mathlib.Data.List.Basic

/-!
# Labelled runs

Steps carry the event that an observer sees of them, or none. A run carries the events of its steps.
-/

namespace Xv6.Lib

variable {σ τ ε : Type} {step : σ → Option ε → σ → Prop} {step' : τ → Option ε → τ → Prop}
  {s s' : σ} {t : τ} {es : List ε}

inductive Run (step : σ → Option ε → σ → Prop) (s : σ) : List ε → σ → Prop where
  | refl : Run step s [] s
  | tail {s' s'' : σ} {es : List ε} {e : Option ε} (hrun : Run step s es s')
      (hstep : step s' e s'') : Run step s (es ++ e.toList) s''

/-- A forward simulation of the steps is one of the runs. -/
theorem Run.simulated {R : σ → τ → Prop}
    (hR : ∀ s t e s', R s t → step s e s' → ∃ t', step' t e t' ∧ R s' t')
    (hrun : Run step s es s') (h : R s t) : ∃ t', Run step' t es t' ∧ R s' t' := by
  induction hrun with
  | refl => exact ⟨t, .refl, h⟩
  | tail _ hstep ih =>
    obtain ⟨t₁, ht₁, h₁⟩ := ih
    obtain ⟨t₂, ht₂, h₂⟩ := hR _ _ _ _ h₁ hstep
    exact ⟨t₂, ht₁.tail ht₂, h₂⟩

end Xv6.Lib
