import Mathlib.Order.WellFounded
import Mathlib.Data.Nat.Find

/-!
# Runs on a schedule

A system whose `step` takes what a schedule `ins` has for it, and that may have to wait for
something the schedule brings later. Such a system gets to a final state when its rank, which
no step raises, is lowered again and again.
-/

namespace Lib.Schedule

variable {σ α μ : Type*}

/-- The state after so many steps. -/
def runs (step : σ → α → σ) (ins : ℕ → α) (s : σ) : ℕ → σ
  | 0 => s
  | n + 1 => step (runs step ins s n) (ins n)

variable {step : σ → α → σ} {ins : ℕ → α} {s : σ}

/-- A property that steps preserve holds after every number of them. -/
theorem runs_invariant {I : σ → Prop} (hinit : I s) (hstep : ∀ s a, I s → I (step s a)) (n : ℕ) :
    I (runs step ins s n) := by
  induction n with
  | zero => exact hinit
  | succ n ih => exact hstep _ _ ih

variable [PartialOrder μ] [WellFoundedLT μ]

/-- A run whose rank never rises and is lowered again and again until it is final gets there. -/
theorem exists_final (final : σ → Prop) (rank : σ → μ)
    (hmono : ∀ n, rank (runs step ins s (n + 1)) ≤ rank (runs step ins s n))
    (hfair : ∀ n, ∃ k, n ≤ k ∧
      (final (runs step ins s k) ∨ rank (runs step ins s (k + 1)) < rank (runs step ins s k))) :
    ∃ n, final (runs step ins s n) := by
  have hanti : ∀ n k, n ≤ k → rank (runs step ins s k) ≤ rank (runs step ins s n) := by
    intro n k hle
    induction k, hle using Nat.le_induction with
    | base => exact le_refl _
    | succ k _ ih => exact (hmono k).trans ih
  have haux : ∀ r n, rank (runs step ins s n) = r → ∃ n, final (runs step ins s n) := by
    intro r
    induction r using WellFoundedLT.induction with
    | ind r ih =>
      intro n hn
      obtain ⟨k, hk, hfinal | hlt⟩ := hfair n
      · exact ⟨k, hfinal⟩
      · exact ih _ (hn ▸ hlt.trans_le (hanti n k hk)) (k + 1) rfl
  exact haux _ 0 rfl

end Lib.Schedule
