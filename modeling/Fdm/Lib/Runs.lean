import Mathlib.Logic.Basic
import Mathlib.Data.List.Basic

/-!
# Guarded runs of a partial step function

A system is given by a step function `step : σ → α → Option σ` that is `none` when the
action is not possible. `Reach step G s₀ s` says that `s` is reached from `s₀` by steps
each of which met the guard `G` in the state it was taken in; with the trivial guard it
is plain reachability.

* `Reach.invariant` is the one induction every safety result goes through;
* `exec` runs a list of actions, so that a concrete run can be evaluated, and
  `reach_of_execGuarded` turns such a run back into `Reach`.
-/

namespace Lib.Runs

variable {σ α : Type*}

/-- States reached from `s₀` by steps that all meet the guard `G`. -/
inductive Reach (step : σ → α → Option σ) (G : σ → α → Prop) (s₀ : σ) : σ → Prop
  | refl : Reach step G s₀ s₀
  | tail {s s' : σ} {a : α} :
      Reach step G s₀ s → G s a → step s a = some s' → Reach step G s₀ s'

/-- The guard that every step meets. -/
def anyStep (_ : σ) (_ : α) : Prop := True

variable {step : σ → α → Option σ} {G : σ → α → Prop} {s₀ s s' : σ}

/-- A property of the initial state that guarded steps preserve holds of every state
reached. -/
theorem Reach.invariant {I : σ → Prop} (hinit : I s₀)
    (hstep : ∀ s a s', I s → G s a → step s a = some s' → I s') (h : Reach step G s₀ s) :
    I s := by
  induction h with
  | refl => exact hinit
  | tail _ hg hs ih => exact hstep _ _ _ ih hg hs

/-- Runs compose. -/
theorem Reach.trans (h₁ : Reach step G s₀ s) (h₂ : Reach step G s s') :
    Reach step G s₀ s' := by
  induction h₂ with
  | refl => exact h₁
  | tail _ hg hs ih => exact ih.tail hg hs

/-- A run under a guard is a run under any weaker guard. -/
theorem Reach.mono {G' : σ → α → Prop} (hG : ∀ s a, G s a → G' s a)
    (h : Reach step G s₀ s) : Reach step G' s₀ s := by
  induction h with
  | refl => exact .refl
  | tail _ hg hs ih => exact ih.tail (hG _ _ hg) hs

/-! ## Executing a list of actions -/

/-- Run the actions in turn; `none` as soon as one of them is not possible. -/
def exec (step : σ → α → Option σ) : σ → List α → Option σ
  | s, [] => some s
  | s, a :: as => (step s a).bind fun s' => exec step s' as

/-- A step function restricted to the steps that meet a decidable guard. -/
def guarded (step : σ → α → Option σ) (g : σ → α → Bool) (s : σ) (a : α) : Option σ :=
  if g s a then step s a else none

/-- What an execution of the restricted step function ends in is reached under the guard. -/
theorem reach_of_execGuarded {g : σ → α → Bool} (hg : ∀ s a, g s a = true → G s a)
    {as : List α} (h : exec (guarded step g) s as = some s') : Reach step G s s' := by
  induction as generalizing s with
  | nil =>
    obtain rfl : s = s' := by simpa [exec] using h
    exact .refl
  | cons a as ih =>
    rw [exec, Option.bind_eq_some_iff] at h
    obtain ⟨t, hstep, hrest⟩ := h
    unfold guarded at hstep
    split at hstep
    · next hguard => exact (Reach.refl.tail (hg s a hguard) hstep).trans (ih hrest)
    · cases hstep

/-- What an execution ends in is reachable. -/
theorem reach_of_exec {as : List α} (h : exec step s as = some s') :
    Reach step anyStep s s' := by
  have hall : guarded step (fun _ _ => true) = step := by
    funext t a
    simp [guarded]
  rw [← hall] at h
  exact reach_of_execGuarded (fun _ _ _ => trivial) h

/-- An execution of the restricted step function keeps an invariant. -/
theorem invariant_of_execGuarded {g : σ → α → Bool} {I : σ → Prop}
    (hgood : ∀ s a s', I s → g s a = true → step s a = some s' → I s') (hinit : I s) {as : List α}
    (h : exec (guarded step g) s as = some s') : I s' :=
  (reach_of_execGuarded (G := fun s a => g s a = true) (fun _ _ hg => hg) h).invariant hinit hgood

/-- Steps outside the guard lead to bad states, and no step leads out of these. What is true at the
end of an execution just when the end is not bad is true just when each step met the guard. -/
theorem iff_execGuarded {g : σ → α → Bool} {I B : σ → Prop}
    (hgood : ∀ s a s', I s → g s a = true → step s a = some s' → I s')
    (hbad : ∀ s a s', I s → g s a = false → step s a = some s' → B s')
    (hstays : ∀ s a s', B s → step s a = some s' → B s') (hinit : I s) {as : List α}
    (h : exec step s as = some s') {P : Prop} (hP : I s' → P) (hnot : B s' → ¬ P) :
    P ↔ exec (guarded step g) s as = some s' := by
  refine ⟨fun hholds => ?_, fun hguarded => hP (invariant_of_execGuarded hgood hinit hguarded)⟩
  have hkept : ∀ {s : σ} {as : List α}, B s → exec step s as = some s' → B s' := by
    intro s as
    induction as generalizing s with
    | nil =>
      intro hB hnil
      obtain rfl : s = s' := by simpa [exec] using hnil
      exact hB
    | cons a as ih =>
      intro hB hcons
      rw [exec, Option.bind_eq_some_iff] at hcons
      obtain ⟨t, hstep, hrest⟩ := hcons
      exact ih (hstays s a t hB hstep) hrest
  induction as generalizing s with
  | nil => exact h
  | cons a as ih =>
    rw [exec, Option.bind_eq_some_iff] at h ⊢
    obtain ⟨t, hstep, hrest⟩ := h
    cases hg : g s a with
    | true =>
      refine ⟨t, ?_, ih (hgood s a t hinit hg hstep) hrest⟩
      rw [guarded, if_pos hg]
      exact hstep
    | false => exact absurd hholds (hnot (hkept (hbad s a t hinit hg hstep) hrest))

/-- The end of an execution that gets there is reachable. -/
theorem reach_get {as : List α} (h : (exec step s as).isSome) :
    Reach step anyStep s ((exec step s as).get h) := reach_of_exec (Option.some_get h).symm

theorem reach_getGuarded {g : σ → α → Bool} (hg : ∀ s a, g s a = true → G s a) {as : List α}
    (h : (exec (guarded step g) s as).isSome) :
    Reach step G s ((exec (guarded step g) s as).get h) :=
  reach_of_execGuarded hg (Option.some_get h).symm

end Lib.Runs
