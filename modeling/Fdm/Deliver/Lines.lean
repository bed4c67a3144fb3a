import Fdm.Io.Defs
import Fdm.Mail

/-!
# Mails that are sent to a server

What the deliveries by SMTP and by IMAP have in common: a loop over the lines of the mail that
writes each of them with CRLF in the place of its newline, and how the text is read again.
-/

namespace Fdm.Deliver

open Lib.Lines

/-! ## The loop over the lines -/

/-- What a loop with `line_init` and `line_next` goes through: of an empty mail, one line of
length zero. -/
def lineLoop {α : Type} (m : Mail α) : List (List Char) :=
  if m.data = [] then [[]] else lines m.data

/-- `io_write(io, ptr, len - 1)`, only if `len > 1`. -/
def bare (l : List Char) : List Char := if 1 < l.length then l.take (l.length - 1) else []

/-- The loop that writes the lines, given whether `io_update` succeeds behind each of them. The
result is what is written and whether all of it is. -/
def writeLines (line : List Char → List Char) : List (List Char) → List Bool → List Char × Bool
  | [], _ => ([], true)
  | l :: ls, [] =>
    let (text, ok) := writeLines line ls []
    (line l ++ text, ok)
  | l :: _, false :: _ => (line l, false)
  | l :: ls, true :: updates =>
    let (text, ok) := writeLines line ls updates
    (line l ++ text, ok)

/-- What is written when all is. -/
theorem writeLines_ok {line : List Char → List Char} {ls : List (List Char)} {updates : List Bool}
    (h : (writeLines line ls updates).2 = true) :
    (writeLines line ls updates).1 = (ls.map line).flatten := by
  induction ls generalizing updates with
  | nil => rfl
  | cons l ls ih =>
    cases updates with
    | nil =>
      rw [writeLines] at h ⊢
      rw [List.map_cons, List.flatten_cons, ← ih h]
    | cons b updates =>
      cases b with
      | false =>
        rw [writeLines] at h
        cases h
      | true =>
        rw [writeLines] at h ⊢
        rw [List.map_cons, List.flatten_cons, ← ih h]

theorem writeLines_nil (line : List Char → List Char) (ls : List (List Char)) :
    writeLines line ls [] = ((ls.map line).flatten, true) := by
  induction ls with
  | nil => rfl
  | cons l ls ih =>
    rw [writeLines, ih]
    rfl

/-- A line without its newline. -/
theorem bare_complete (b : List Char) : bare (b ++ ['\n']) = b := by
  unfold bare
  cases b with
  | nil => rfl
  | cons c b => simp

/-- A line loses one character, its newline or its last one. -/
theorem bare_length {l : List Char} (h : l ≠ []) : (bare l).length + 1 = l.length := by
  have hpos := List.length_pos_iff.mpr h
  unfold bare
  split_ifs
  · rw [List.length_take]
    omega
  · rw [List.length_nil]
    omega

theorem bare_line {b l : List Char} (hb : '\n' ∉ b) (hl : l = b ∨ l = b ++ ['\n']) :
    '\n' ∉ bare l := by
  rcases hl with rfl | rfl
  · unfold bare
    split_ifs
    · exact fun hmem => hb (List.mem_of_mem_take hmem)
    · exact List.not_mem_nil
  · rwa [bare_complete]

theorem ne_nil_of_ruled {ls : List (List Char)} {l : List Char} (h : Ruled ls) (hl : l ∈ ls) :
    l ≠ [] := by
  induction h with
  | nil => cases hl
  | last b hb hne =>
    rw [List.mem_singleton] at hl
    rwa [hl]
  | cons b ls hb hrest ih =>
    rcases List.mem_cons.mp hl with rfl | hl
    · simp
    · exact ih hl

/-- The text of a mail that ends with a newline has only complete lines. -/
theorem complete_of_getLast {s : List Char} (h : s.getLast? = some '\n') :
    ∀ l ∈ lines s, Complete l := by
  obtain ⟨t, rfl⟩ : ∃ t, s = t ++ ['\n'] := by
    rcases List.eq_nil_or_concat s with rfl | ⟨t, c, rfl⟩
    · cases h
    · refine ⟨t, ?_⟩
      rw [List.concat_eq_append, List.getLast?_append, List.getLast?_singleton] at h
      cases h
      rw [List.concat_eq_append]
  exact complete_lines t

theorem lineLoop_line {α : Type} (m : Mail α) : ∀ l ∈ lineLoop m, '\n' ∉ bare l := by
  intro l hl
  unfold lineLoop at hl
  split_ifs at hl
  · rw [List.mem_singleton.mp hl]
    exact List.not_mem_nil
  · obtain ⟨b, hb, heq⟩ := eq_of_mem_lines hl
    exact bare_line hb heq

/-- Lines that get a newline in the place of what they lose are as long as before. -/
theorem length_newlines {ls : List (List Char)} (h : Ruled ls) :
    (ls.map fun l => bare l ++ ['\n']).flatten.length = ls.flatten.length := by
  have hmap : (ls.map fun l => bare l ++ ['\n']).map List.length = ls.map List.length := by
    rw [List.map_map]
    apply List.map_congr_left
    intro l hl
    show (bare l ++ ['\n']).length = l.length
    rw [List.length_append, List.length_singleton, bare_length (ne_nil_of_ruled h hl)]
  rw [List.length_flatten, List.length_flatten, hmap]

theorem newlines_complete {ls : List (List Char)} (h : ∀ l ∈ ls, Complete l) :
    (ls.map fun l => bare l ++ ['\n']) = ls := by
  refine (List.map_congr_left fun l hl => ?_).trans (List.map_id ls)
  obtain ⟨b, -, rfl⟩ := h l hl
  show bare (b ++ ['\n']) ++ ['\n'] = b ++ ['\n']
  rw [bare_complete]

end Fdm.Deliver
