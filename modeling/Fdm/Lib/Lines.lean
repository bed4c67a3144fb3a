import Mathlib.Data.List.Basic
import Mathlib.Tactic.SplitIfs

/-!
# The lines of a text

`lines` cuts a text into its lines, with their newlines.

* `flatten_lines` and `Ruled.lines_flatten`: cutting and putting together are inverse;
* `lines_append`, `lines_newline`: the lines of longer texts.
-/

namespace Lib.Lines

/-- The lines of a text, each with its newline; the last one may have none. -/
def lines : List Char → List (List Char)
  | [] => []
  | c :: s =>
    if c = '\n' then ['\n'] :: lines s
    else
      match lines s with
      | [] => [[c]]
      | l :: ls => (c :: l) :: ls

/-- The lines of a text are the text. -/
theorem flatten_lines (s : List Char) : (lines s).flatten = s := by
  induction s with
  | nil => rfl
  | cons c s ih =>
    rw [lines]
    split_ifs with hc
    · rw [List.flatten_cons, ih, hc, List.singleton_append]
    · split
      · next hnil =>
        rw [hnil] at ih
        simp [← ih]
      · next l ls hcons =>
        rw [hcons] at ih
        rw [← ih]
        rfl

/-- Lines as `lines` makes them: each ends with its only newline, but perhaps the last. -/
inductive Ruled : List (List Char) → Prop
  | nil : Ruled []
  | last (b : List Char) (hb : '\n' ∉ b) (hne : b ≠ []) : Ruled [b]
  | cons (b : List Char) (ls : List (List Char)) (hb : '\n' ∉ b) (h : Ruled ls) :
    Ruled ((b ++ ['\n']) :: ls)

theorem ruled_lines (s : List Char) : Ruled (lines s) := by
  induction s with
  | nil => exact .nil
  | cons c s ih =>
    rw [lines]
    by_cases hc : c = '\n'
    · rw [if_pos hc]
      exact .cons [] _ (by simp) ih
    · rw [if_neg hc]
      have hne : '\n' ≠ c := fun h => hc h.symm
      cases hls : lines s with
      | nil => exact .last [c] (by simp [hne]) (by simp)
      | cons l ls =>
        rw [hls] at ih
        cases ih with
        | last _ hb _ => exact .last (c :: l) (by simp [hne, hb]) (by simp)
        | cons b ls hb h => exact .cons (c :: b) ls (by simp [hne, hb]) h

/-- A line is the text in front of its newline, with the newline or without. -/
theorem Ruled.eq_of_mem {ls : List (List Char)} {l : List Char} (h : Ruled ls) (hl : l ∈ ls) :
    ∃ b, '\n' ∉ b ∧ (l = b ∨ l = b ++ ['\n']) := by
  induction h with
  | nil => cases hl
  | last b hb _ => exact ⟨b, hb, Or.inl (List.mem_singleton.mp hl)⟩
  | cons b ls hb _ ih =>
    rcases List.mem_cons.mp hl with hl | hl
    · exact ⟨b, hb, Or.inr hl⟩
    · exact ih hl

theorem eq_of_mem_lines {s l : List Char} (h : l ∈ lines s) :
    ∃ b, '\n' ∉ b ∧ (l = b ∨ l = b ++ ['\n']) :=
  (ruled_lines s).eq_of_mem h

theorem lines_append_newline {b : List Char} (hb : '\n' ∉ b) (s : List Char) :
    lines (b ++ '\n' :: s) = (b ++ ['\n']) :: lines s := by
  induction b with
  | nil => rfl
  | cons c b ih =>
    have hc : c ≠ '\n' := fun h => hb (by simp [h])
    have hmem : '\n' ∉ b := fun h => hb (List.mem_cons_of_mem c h)
    rw [List.cons_append, lines, if_neg hc, ih hmem]
    rfl

theorem lines_of_not_mem {b : List Char} (hb : '\n' ∉ b) (hne : b ≠ []) : lines b = [b] := by
  induction b with
  | nil => exact absurd rfl hne
  | cons c b ih =>
    have hc : c ≠ '\n' := fun h => hb (by simp [h])
    have hmem : '\n' ∉ b := fun h => hb (List.mem_cons_of_mem c h)
    rw [lines, if_neg hc]
    by_cases hb' : b = []
    · rw [hb']
      rfl
    · rw [ih hmem hb']

/-- Ruled lines are the lines of the text they make. -/
theorem Ruled.lines_flatten {ls : List (List Char)} (h : Ruled ls) : lines ls.flatten = ls := by
  induction h with
  | nil => rfl
  | last b hb hne => rw [List.flatten_singleton, lines_of_not_mem hb hne]
  | cons b ls hb _ ih =>
    rw [List.flatten_cons, List.append_assoc, List.singleton_append, lines_append_newline hb, ih]

/-- There are no more lines than characters. -/
theorem length_lines_le (s : List Char) : (lines s).length ≤ s.length := by
  induction s with
  | nil => exact Nat.le_refl 0
  | cons c s ih =>
    rw [lines, List.length_cons]
    split_ifs
    · rw [List.length_cons]
      omega
    · split
      · simp
      · next l ls hls =>
        rw [hls, List.length_cons] at ih
        rw [List.length_cons]
        omega

/-- A line with its newline. -/
def Complete (l : List Char) : Prop := ∃ b, '\n' ∉ b ∧ l = b ++ ['\n']

theorem ruled_of_complete {ls : List (List Char)} (h : ∀ l ∈ ls, Complete l) : Ruled ls := by
  induction ls with
  | nil => exact .nil
  | cons l ls ih =>
    obtain ⟨b, hb, rfl⟩ := h l List.mem_cons_self
    exact .cons b ls hb (ih fun x hx => h x (List.mem_cons_of_mem _ hx))

theorem Ruled.complete_append {ls ls' : List (List Char)} (h : ∀ l ∈ ls, Complete l)
    (h' : Ruled ls') : Ruled (ls ++ ls') := by
  induction ls with
  | nil => exact h'
  | cons l ls ih =>
    obtain ⟨b, hb, rfl⟩ := h l List.mem_cons_self
    exact .cons b _ hb (ih fun x hx => h x (List.mem_cons_of_mem _ hx))

/-- Lines with others behind them are complete. -/
theorem Ruled.complete_of_append {ls : List (List Char)} {l : List Char} {ls' : List (List Char)}
    (h : Ruled (ls ++ l :: ls')) : ∀ x ∈ ls, Complete x := by
  induction ls with
  | nil => simp
  | cons x ls ih =>
    intro y hy
    rw [List.cons_append] at h
    generalize hrest : ls ++ l :: ls' = rest at h
    cases h with
    | last b _ _ =>
      have hlen := congrArg List.length hrest
      simp at hlen
    | cons b _ hb h =>
      rcases List.mem_cons.mp hy with hy | hy
      · exact ⟨b, hb, hy⟩
      · rw [← hrest] at h
        exact ih h y hy

/-- All lines of a text that ends with a newline are complete. -/
theorem complete_lines (s : List Char) : ∀ l ∈ lines (s ++ ['\n']), Complete l := by
  have hall : ∀ ls, Ruled ls → (∀ c ∈ ls.flatten.getLast?, c = '\n') → ∀ l ∈ ls, Complete l := by
    intro ls h
    induction h with
    | nil => simp
    | last b hb hne =>
      intro hlast
      rw [List.flatten_singleton] at hlast
      have hmem := List.getLast_mem hne
      rw [hlast _ (List.getLast?_eq_some_getLast hne)] at hmem
      exact absurd hmem hb
    | cons b ls hb _ ih =>
      intro hlast l hl
      rcases List.mem_cons.mp hl with hl | hl
      · exact ⟨b, hb, hl⟩
      · refine ih (fun c hc => hlast c ?_) l hl
        rw [List.flatten_cons, List.getLast?_append]
        rw [Option.mem_def] at hc ⊢
        rw [hc, Option.some_or]
  refine hall _ (ruled_lines _) fun c hc => ?_
  rw [flatten_lines] at hc
  simpa using hc.symm

/-- The lines of two texts, the first of which ends with a newline. -/
theorem lines_append (s t : List Char) :
    lines (s ++ ['\n'] ++ t) = lines (s ++ ['\n']) ++ lines t := by
  have hruled : Ruled (lines (s ++ ['\n']) ++ lines t) :=
    Ruled.complete_append (complete_lines s) (ruled_lines t)
  rw [← hruled.lines_flatten, List.flatten_append, flatten_lines, flatten_lines]

/-- A newline at the end of a text makes a new line, or ends the last one. -/
theorem lines_newline {ls : List (List Char)} (h : Ruled ls) :
    lines (ls.flatten ++ ['\n']) = ls ++ [['\n']] ∨
      ∃ ls' b, '\n' ∉ b ∧ ls = ls' ++ [b] ∧ lines (ls.flatten ++ ['\n']) = ls' ++ [b ++ ['\n']] := by
  induction h with
  | nil => exact Or.inl rfl
  | last b hb hne =>
    refine Or.inr ⟨[], b, hb, rfl, ?_⟩
    rw [List.flatten_singleton, lines_append_newline hb]
    rfl
  | cons b ls hb _ ih =>
    have hstep : lines (((b ++ ['\n']) :: ls).flatten ++ ['\n'])
        = (b ++ ['\n']) :: lines (ls.flatten ++ ['\n']) := by
      rw [List.flatten_cons, List.append_assoc, List.append_assoc, List.singleton_append,
        lines_append_newline hb]
    rw [hstep]
    rcases ih with ih | ⟨ls', b', hb', hls, ih⟩
    · exact Or.inl (by rw [ih, List.cons_append])
    · exact Or.inr ⟨(b ++ ['\n']) :: ls', b', hb', by rw [hls, List.cons_append],
        by rw [ih, List.cons_append]⟩

end Lib.Lines
