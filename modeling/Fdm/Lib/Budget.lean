import Mathlib.Data.List.Basic
import Mathlib.Tactic.SplitIfs

/-!
# Walks with a budget

A walk that collects items uses some units, or stops with an error. A program that goes on such a
walk with one counter for all of it, and stops when the counter is used up, finds what the walk
finds exactly as long as the whole walk uses less than there is.

* `Walk.all`: a walk through a list, one walk for each element;
* `gather_run`: the same with a counter that is handed on;
* `all_error_iff`: a walk that can only stop for one reason does so when one of its parts does.
-/

namespace Lib.Budget

universe u v w

variable {α : Type u} {β : Type v} {ε : Type w}

/-- What a walk uses, up to where it stops if it does, and what it finds or why it stops. -/
structure Walk (ε : Type w) (β : Type v) where
  used : ℕ
  result : Except ε (List β)

namespace Walk

/-- One walk behind another. -/
def andThen (w w' : Walk ε β) : Walk ε β :=
  match w.result with
  | .error e => ⟨w.used, .error e⟩
  | .ok q => ⟨w.used + w'.used, w'.result.map (q ++ ·)⟩

/-- A walk for each element of a list. -/
def all (f : α → Walk ε β) : List α → Walk ε β
  | [] => ⟨0, .ok []⟩
  | a :: as => (f a).andThen (all f as)

/-- A walk with a counter: it stops with the error `e` when the counter is used up, and otherwise
hands on what is left of it. -/
def run (w : Walk ε β) (e : ε) (budget : ℕ) : Except ε (ℕ × List β) :=
  if w.used < budget then w.result.map fun q => (budget - w.used, q) else .error e

theorem run_andThen (w w' : Walk ε β) (e : ε) (budget : ℕ) :
    (w.andThen w').run e budget =
      (w.run e budget).bind fun (left, q) => (w'.run e left).map fun (left, q') => (left, q ++ q') := by
  unfold andThen run
  cases hw : w.result with
  | error e' =>
    dsimp only
    split_ifs <;> rfl
  | ok q =>
    dsimp only
    by_cases hlt : w.used < budget
    · rw [if_pos hlt]
      simp only [Except.map, Except.bind]
      by_cases hlt' : w'.used < budget - w.used
      · rw [if_pos (by omega), if_pos hlt', Nat.sub_add_eq]
        cases w'.result <;> rfl
      · rw [if_neg (by omega), if_neg hlt']
    · rw [if_neg hlt, if_neg (by omega)]
      rfl

/-- What is left of a counter is something. -/
theorem run_pos {w : Walk ε β} {e : ε} {budget left : ℕ} {q : List β}
    (h : w.run e budget = .ok (left, q)) : 0 < left ∧ left ≤ budget := by
  unfold run at h
  split_ifs at h
  cases hw : w.result with
  | error e' =>
    rw [hw] at h
    cases h
  | ok q' =>
    rw [hw] at h
    cases h
    omega

/-- A walk does not stop for a reason for which none of its parts does. -/
theorem all_ne {e : ε} {f : α → Walk ε β} {as : List α} (h : ∀ a ∈ as, (f a).result ≠ .error e) :
    (all f as).result ≠ .error e := by
  induction as with
  | nil => nofun
  | cons a as ih =>
    have ha := h a List.mem_cons_self
    have ih := ih fun b hb => h b (List.mem_cons_of_mem _ hb)
    rw [all, andThen]
    cases hres : (f a).result with
    | error e' =>
      rw [hres] at ha
      exact ha
    | ok q =>
      dsimp only
      cases hrest : (all f as).result with
      | error e' =>
        rw [hrest] at ih
        intro heq
        cases heq
        exact ih rfl
      | ok q' => nofun

/-- The walk finds something, or stops with the error `e`. -/
def Only (e : ε) (w : Walk ε β) : Prop := w.result = .error e ∨ ∃ q, w.result = .ok q

theorem only_andThen {e : ε} {w w' : Walk ε β} (h : Only e w) (h' : Only e w') :
    Only e (w.andThen w') := by
  unfold Only andThen at *
  rcases h with h | ⟨q, h⟩
  · rw [h]
    exact .inl rfl
  · rw [h]
    rcases h' with h' | ⟨q', h'⟩
    · left
      dsimp only
      rw [h']
      rfl
    · right
      dsimp only
      rw [h']
      exact ⟨_, rfl⟩

theorem only_all {e : ε} {f : α → Walk ε β} {as : List α} (h : ∀ a ∈ as, Only e (f a)) :
    Only e (all f as) := by
  induction as with
  | nil => exact .inr ⟨[], rfl⟩
  | cons a as ih =>
    exact only_andThen (h a List.mem_cons_self) (ih fun b hb => h b (List.mem_cons_of_mem _ hb))

/-- A walk that can only stop for one reason does so when one of its parts does. -/
theorem all_error_iff {e : ε} {f : α → Walk ε β} {as : List α} (h : ∀ a ∈ as, Only e (f a)) :
    (all f as).result = .error e ↔ ∃ a ∈ as, (f a).result = .error e := by
  induction as with
  | nil => simp [all]
  | cons a as ih =>
    have ih := ih fun b hb => h b (List.mem_cons_of_mem _ hb)
    rw [all, andThen, List.exists_mem_cons_iff, ← ih]
    rcases h a List.mem_cons_self with ha | ⟨q, ha⟩
    · simp [ha]
    · rw [ha]
      cases (all f as).result with
      | error e' => simp [Except.map]
      | ok q' => simp [Except.map]

end Walk

/-- Go through a list with a counter, and put together what is found. -/
def gather (f : α → ℕ → Except ε (ℕ × List β)) : List α → ℕ → Except ε (ℕ × List β)
  | [], left => .ok (left, [])
  | a :: as, left =>
    (f a left).bind fun (left, q) => (gather f as left).map fun (left, q') => (left, q ++ q')

/-- Functions that go on walks with a counter of at most `most` do so one behind the other. -/
theorem gather_run {f : α → ℕ → Except ε (ℕ × List β)} {w : α → Walk ε β} {e : ε} {most : ℕ}
    (as : List α) (h : ∀ a ∈ as, ∀ left, 0 < left → left ≤ most → f a left = (w a).run e left)
    {left : ℕ} (hpos : 0 < left) (hle : left ≤ most) :
    gather f as left = (Walk.all w as).run e left := by
  induction as generalizing left with
  | nil => simp [gather, Walk.all, Walk.run, hpos, Except.map]
  | cons a as ih =>
    rw [gather, Walk.all, Walk.run_andThen, h a List.mem_cons_self left hpos hle]
    cases hrun : (w a).run e left with
    | error e' => rfl
    | ok r =>
      obtain ⟨left', q⟩ := r
      obtain ⟨hpos', hle'⟩ := Walk.run_pos hrun
      simp only [Except.bind]
      rw [ih (fun b hb => h b (List.mem_cons_of_mem _ hb)) hpos' (by omega)]

end Lib.Budget
