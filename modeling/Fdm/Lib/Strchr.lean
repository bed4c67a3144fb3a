import Mathlib.Data.List.TakeWhile

/-!
# Looking for a character

`strchr` on a string without its terminator, and the text in front of what it finds.

* `takeWhile_stop` and `dropWhile_stop`: a text is cut where a test fails for the first time;
* `takeWhile_ne` and `dropWhile_ne`: it is cut in front of a character.
-/

namespace Lib.Strchr

/-! ## Cutting -/

section

variable {α : Type*} {p : α → Bool} {a : List α}

/-- A stretch of characters ends in front of the first one of another kind. -/
theorem takeWhile_stop (ha : ∀ x ∈ a, p x = true) {b : List α} (hb : ∀ c ∈ b.head?, p c = false) :
    (a ++ b).takeWhile p = a := by
  rw [List.takeWhile_append_of_pos ha]
  cases b with
  | nil => rw [List.takeWhile_nil, List.append_nil]
  | cons c b => rw [List.takeWhile_cons_of_neg (by simp [hb c rfl]), List.append_nil]

/-- What is behind it is left. -/
theorem dropWhile_stop (ha : ∀ x ∈ a, p x = true) {b : List α} (hb : ∀ c ∈ b.head?, p c = false) :
    (a ++ b).dropWhile p = b := by
  rw [List.dropWhile_append_of_pos ha]
  cases b with
  | nil => rfl
  | cons c b => exact List.dropWhile_cons_of_neg (by simp [hb c rfl])

variable [DecidableEq α] {c : α}

/-- The test for another character holds in front of it. -/
theorem all_ne (ha : c ∉ a) : ∀ x ∈ a, decide (x ≠ c) = true := by
  intro x hx
  exact decide_eq_true fun heq => ha (heq ▸ hx)

/-- A field ends in front of its separator. -/
theorem takeWhile_ne (ha : c ∉ a) (b : List α) : (a ++ c :: b).takeWhile (· ≠ c) = a :=
  takeWhile_stop (all_ne ha) (by simp)

theorem dropWhile_ne (ha : c ∉ a) (b : List α) : (a ++ c :: b).dropWhile (· ≠ c) = c :: b :=
  dropWhile_stop (all_ne ha) (by simp)

/-- Without a separator all of it is the field. -/
theorem takeWhile_ne_self (ha : c ∉ a) : a.takeWhile (· ≠ c) = a :=
  List.takeWhile_eq_self_iff.2 (all_ne ha)

theorem dropWhile_ne_nil (ha : c ∉ a) : a.dropWhile (· ≠ c) = [] :=
  List.dropWhile_eq_nil_iff.2 (all_ne ha)

end

/-- The text behind a character. -/
theorem drop_behind {α : Type*} (a : List α) (c : α) (b : List α) :
    (a ++ c :: b).drop (a.length + 1) = b := by
  rw [List.drop_length_add_append, List.drop_one, List.tail_cons]

/-! ## `strchr` -/

/-- The offset of the first occurrence of a character. -/
def strchr (s : List Char) (c : Char) : Option ℕ := s.findIdx? (· = c)

/-- Nothing is found if and only if the character is not there. -/
theorem strchr_eq_none {s : List Char} {c : Char} : strchr s c = none ↔ c ∉ s := by
  rw [strchr, List.findIdx?_eq_none_iff]
  constructor
  · intro h hc
    simpa using h c hc
  · intro h x hx
    simpa using fun heq : x = c => h (heq ▸ hx)

/-- The first one is found. -/
theorem strchr_append {a : List Char} {c : Char} (ha : c ∉ a) (b : List Char) :
    strchr (a ++ c :: b) c = some a.length := by
  rw [strchr, List.findIdx?_append, ← strchr, strchr_eq_none.2 ha]
  simp [List.findIdx?_cons]

/-- What is found is the first one. -/
theorem exists_of_strchr {s : List Char} {c : Char} {n : ℕ} (h : strchr s c = some n) :
    ∃ a b, c ∉ a ∧ s = a ++ c :: b ∧ a.length = n := by
  have hmem : c ∈ s := by
    by_contra hc
    rw [strchr_eq_none.2 hc] at h
    cases h
  obtain ⟨a, b, rfl, ha⟩ := List.eq_append_cons_of_mem hmem
  rw [strchr_append ha] at h
  exact ⟨a, b, ha, rfl, Option.some.inj h⟩

end Lib.Strchr
