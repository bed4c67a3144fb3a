import Fdm.Lib.Runs

/-!
# Simulation

One system simulates another along a relation between their states: a step of the one is matched
by some steps of the other, or by none, that lead to related states again.
-/

namespace Lib.Runs

variable {σ α τ β : Type*} {step : σ → α → Option σ} {G : σ → α → Prop}
  {step' : τ → β → Option τ} {G' : τ → β → Prop}

/-- A single step is a run. -/
theorem Reach.single {s s' : σ} {a : α} (hg : G s a) (hs : step s a = some s') :
    Reach step G s s' := .tail .refl hg hs

/-- A run of a system that is simulated is matched by a run of the other. -/
theorem Reach.simulated {R : σ → τ → Prop} {s₀ s : σ} {t₀ : τ} (hinit : R s₀ t₀)
    (hstep : ∀ s a s' t, R s t → G s a → step s a = some s' →
      ∃ t', Reach step' G' t t' ∧ R s' t')
    (h : Reach step G s₀ s) : ∃ t, Reach step' G' t₀ t ∧ R s t := by
  induction h with
  | refl => exact ⟨t₀, .refl, hinit⟩
  | tail _ hg hs ih =>
    obtain ⟨t, hreach, hR⟩ := ih
    obtain ⟨t', hreach', hR'⟩ := hstep _ _ _ t hR hg hs
    exact ⟨t', hreach.trans hreach', hR'⟩

end Lib.Runs
