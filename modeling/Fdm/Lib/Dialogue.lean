import Fdm.Lib.Runs

/-!
# What is said in a dialogue

What a party may say next depends on what it has said before: `next` is the step function of an
automaton whose letters are what is said. `Speaks` is for a party that has kept to that, and to
what it is allowed to say at all.
-/

namespace Lib.Dialogue

open Lib.Runs

variable {φ κ : Type*} {next : φ → κ → Option φ} {allowed : κ → Prop} {s t u : φ} {c : κ}
  {said : List κ}

/-- One thing more is said. -/
theorem exec_concat (next : φ → κ → Option φ) (s : φ) (said : List κ) (c : κ) :
    exec next s (said ++ [c]) = (exec next s said).bind fun t => next t c := by
  induction said generalizing s with
  | nil =>
    rw [List.nil_append, exec, exec, Option.bind_some]
    cases next s c <;> rfl
  | cons d said ih =>
    rw [List.cons_append, exec, exec, Option.bind_assoc]
    exact congrArg _ (funext ih)

/-- What has been said leads from `s` to `t`, and all of it was allowed. -/
structure Speaks (next : φ → κ → Option φ) (allowed : κ → Prop) (s : φ) (said : List κ) (t : φ) :
    Prop where
  phase : exec next s said = some t
  allowed : ∀ c ∈ said, allowed c

theorem Speaks.nil : Speaks next allowed s [] s := ⟨rfl, nofun⟩

theorem Speaks.say (h : Speaks next allowed s said t) (hnext : next t c = some u)
    (hc : allowed c) : Speaks next allowed s (said ++ [c]) u := by
  constructor
  · rw [exec_concat, h.phase, Option.bind_some, hnext]
  · intro d hd
    rcases List.mem_append.mp hd with hd | hd
    · exact h.allowed d hd
    · rwa [List.mem_singleton.mp hd]

/-- How often something is said is bounded by how often something else is: `left` is how often it
can still be said in a phase. -/
theorem countP_le {p q : κ → Bool} (left : φ → ℕ)
    (hleft : ∀ s c t, next s c = some t →
      (if p c then 1 else 0) + left t ≤ left s + if q c then 1 else 0)
    (h : exec next s said = some t) : said.countP p + left t ≤ left s + said.countP q := by
  induction said generalizing s with
  | nil =>
    obtain rfl := Option.some.inj h
    simp
  | cons c said ih =>
    obtain ⟨u, hc, hrest⟩ := Option.bind_eq_some_iff.mp h
    have hstep := hleft s c u hc
    have hlast := ih hrest
    rw [List.countP_cons, List.countP_cons]
    omega

end Lib.Dialogue
