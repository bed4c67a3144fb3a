import Mathlib.Data.List.Basic
import Mathlib.Data.List.Perm.Basic

/-!
# Who holds what

Things are held by records in a list, each of which has some of them: `held f l b` is how often `b`
is held, where `f` gives the things that a record has. An account of everything is an equation
between such numbers, and moving things about changes its terms.

* `held_erase`, `held_partition`: what a record that is taken out held, or many of them;
* `held_replace`: a record that holds other things than before.
-/

namespace Lib.Holdings

variable {α β : Type*} [DecidableEq β]

/-- How often `b` is held. -/
def held (f : α → List β) (l : List α) (b : β) : ℕ := (l.flatMap f).count b

variable {f : α → List β} {l l' : List α} {x y : α} {b : β}

theorem count_flatMap : (l.flatMap f).count b = held f l b := rfl

@[simp] theorem held_nil : held f [] b = 0 := rfl

@[simp] theorem held_cons : held f (x :: l) b = (f x).count b + held f l b := by
  rw [held, List.flatMap_cons, List.count_append]
  rfl

@[simp] theorem held_append : held f (l ++ l') b = held f l b + held f l' b := by
  rw [held, List.flatMap_append, List.count_append]
  rfl

/-- The order of the records does not matter. -/
theorem held_perm (h : l.Perm l') : held f l b = held f l' b :=
  (h.flatMap_right f).count_eq b

/-- A record that is taken out. -/
theorem held_erase [DecidableEq α] (h : x ∈ l) :
    held f l b = (f x).count b + held f (l.erase x) b := by
  rw [held_perm (List.perm_cons_erase h), held_cons]

/-- A record that becomes another one. -/
theorem held_replace [DecidableEq α] (h : x ∈ l) :
    held f (y :: l.erase x) b + (f x).count b = held f l b + (f y).count b := by
  rw [held_cons, held_erase h]
  omega

/-- The records of one kind, and the others. -/
theorem held_partition (p : α → Bool) :
    held f l b = held f (l.filter p) b + held f (l.filter fun x => !p x) b := by
  rw [← held_append]
  exact held_perm (List.filter_append_perm p l).symm

/-- Nothing is held by records that have nothing. -/
theorem held_eq_zero (h : ∀ x ∈ l, f x = []) : held f l b = 0 := by
  rw [held, List.flatMap_eq_nil_iff.mpr h]
  rfl

/-- What a record has is held. -/
theorem held_pos (hx : x ∈ l) (hb : b ∈ f x) : 0 < held f l b :=
  List.count_pos_iff.mpr (List.mem_flatMap.mpr ⟨x, hx, hb⟩)

/-- What is held is held by a record. -/
theorem exists_of_held_pos (h : 0 < held f l b) : ∃ x ∈ l, b ∈ f x :=
  List.mem_flatMap.mp (List.count_pos_iff.mp h)

end Lib.Holdings
