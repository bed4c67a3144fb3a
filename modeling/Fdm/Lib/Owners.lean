import Mathlib.Data.Nat.Notation
import Mathlib.Logic.Function.Basic
import Mathlib.Tactic.SplitIfs

/-!
# Locks on numbered things

A table that says for each number who has locked it, as the kernel keeps one for the locks
on files: a lock is given when nobody has it, and taken back from its owner only.

* `acquire_self`, `acquire_keep`: who asks gets it, and nobody loses one;
* `release_keep`: giving up a lock does not touch those of others.
-/

namespace Lib.Owners

variable {P : Type*}

/-- Give the lock to `p` if it is free. -/
def acquire (p : P) (n : ℕ) (owner : ℕ → Option P) : Option (ℕ → Option P) :=
  match owner n with
  | none => some (Function.update owner n (some p))
  | some _ => none

/-- Take the lock back from `p`, if it has it. -/
def release [DecidableEq P] (p : P) (n : ℕ) (owner : ℕ → Option P) : ℕ → Option P :=
  if owner n = some p then Function.update owner n none else owner

variable {p q : P} {n i : ℕ} {owner owner' : ℕ → Option P}

/-- Who acquires a thing owns it. -/
theorem acquire_self (h : acquire p n owner = some owner') : owner' n = some p := by
  unfold acquire at h
  cases hn : owner n with
  | none =>
    rw [hn] at h
    rw [← Option.some.inj h]
    exact Function.update_self ..
  | some r => simp [hn] at h

/-- Nobody loses what was owned. -/
theorem acquire_keep (h : acquire p n owner = some owner') (hi : owner i = some q) :
    owner' i = some q := by
  unfold acquire at h
  cases hn : owner n with
  | none =>
    rw [hn] at h
    have hne : i ≠ n := by
      rintro rfl
      rw [hn] at hi
      cases hi
    rw [← Option.some.inj h, Function.update_of_ne hne]
    exact hi
  | some r => simp [hn] at h

/-- Releasing takes nothing from others. -/
theorem release_keep [DecidableEq P] (hq : q ≠ p) (hi : owner i = some q) :
    release p n owner i = some q := by
  unfold release
  split_ifs with hn
  · have hne : i ≠ n := by
      rintro rfl
      rw [hn, Option.some_inj] at hi
      exact hq hi.symm
    rw [Function.update_of_ne hne]
    exact hi
  · exact hi

end Lib.Owners
