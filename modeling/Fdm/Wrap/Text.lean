import Fdm.Wrap.Defs

/-!
# The bytes of a mail

A mail as a text with a newline at each fold: the header in front of the separator, and the rest.

* `bodyOf_append`: `find_body` finds the separator behind a header;
* `fillFrom_eq`: `fill_wrapped` finds the folds of the header;
* `Headers`: the fields of a header, some of which are again a header.
-/

namespace Fdm.Wrap

open Lib.Lines Lib.Folding

/-- `find_body` on the bytes of a mail. -/
def bodyOf (text : List Char) : ℕ := Fdm.Mail.findBodyFrom 0 (lines text)

/-- The header, without the separator. -/
def headerOf (text : List Char) : List Char := text.take (bodyOf text - 1)

/-- What is behind the header: the separator and the body, or a mail without them. -/
def restOf (text : List Char) : List Char := text.drop (bodyOf text - 1)

theorem header_rest (text : List Char) : headerOf text ++ restOf text = text :=
  List.take_append_drop _ _

/-- Complete lines, none of them empty. -/
def Header (h : List Char) : Prop := ∀ l ∈ lines h, Complete l ∧ l ≠ ['\n']

theorem header_nil : Header [] := by
  intro l hl
  cases hl

/-- The lines of a header are lines of the text. -/
theorem Header.lines_text {h : List Char} (hh : Header h) (s : List Char) :
    lines (h ++ s) = lines h ++ lines s := by
  have hruled := Ruled.complete_append (fun l hl => (hh l hl).1) (ruled_lines s)
  have hlines := hruled.lines_flatten
  rwa [List.flatten_append, flatten_lines, flatten_lines] at hlines

/-- One header behind another. -/
theorem Header.append {h h' : List Char} (hh : Header h) (hh' : Header h') :
    Header (h ++ h') := by
  intro l hl
  rw [hh.lines_text] at hl
  rcases List.mem_append.mp hl with hl | hl
  · exact hh l hl
  · exact hh' l hl

/-- Some lines of a header are a header. -/
theorem header_flatten {ls : List (List Char)} (h : ∀ l ∈ ls, Complete l ∧ l ≠ ['\n']) :
    lines ls.flatten = ls ∧ Header ls.flatten := by
  have hlines := (ruled_of_complete fun l hl => (h l hl).1).lines_flatten
  refine ⟨hlines, fun l hl => h l ?_⟩
  rwa [hlines] at hl

/-- A header ends with a newline. -/
theorem Header.getLast? {h : List Char} (hh : Header h) (hne : h ≠ []) :
    h.getLast? = some '\n' := by
  rcases List.eq_nil_or_concat (lines h) with hnil | ⟨ls, l, hconcat⟩
  · have hflat := flatten_lines h
    rw [hnil] at hflat
    exact absurd hflat.symm hne
  · obtain ⟨⟨b, -, rfl⟩, -⟩ := hh l (by simp [hconcat])
    have hflat := flatten_lines h
    rw [← hflat, hconcat]
    simp

/-! ## The body -/

/-- The body begins behind the first empty line. -/
theorem findBodyFrom_append {ls : List (List Char)} (h : ∀ l ∈ ls, l ≠ ['\n']) (off : ℕ)
    (rest : List (List Char)) :
    Fdm.Mail.findBodyFrom off (ls ++ ['\n'] :: rest) = off + ls.flatten.length + 1 := by
  induction ls generalizing off with
  | nil => rfl
  | cons l ls ih =>
    rw [List.cons_append, Fdm.Mail.findBodyFrom, if_neg (h l List.mem_cons_self),
      ih (fun x hx => h x (List.mem_cons_of_mem l hx)), List.flatten_cons, List.length_append]
    omega

theorem findBodyFrom_eq_zero {ls : List (List Char)} (h : ['\n'] ∉ ls) (off : ℕ) :
    Fdm.Mail.findBodyFrom off ls = 0 := by
  induction ls generalizing off with
  | nil => rfl
  | cons l ls ih =>
    rw [List.mem_cons, not_or] at h
    rw [Fdm.Mail.findBodyFrom, if_neg (Ne.symm h.1), ih h.2]

/-- The body starts behind the separator. -/
theorem bodyOf_append {h : List Char} (hh : Header h) (b : List Char) :
    bodyOf (h ++ '\n' :: b) = h.length + 1 := by
  have hlines : lines (h ++ '\n' :: b) = lines h ++ ['\n'] :: lines b := hh.lines_text ('\n' :: b)
  rw [bodyOf, hlines, findBodyFrom_append (fun l hl => (hh l hl).2), flatten_lines]
  omega

/-- The header is what is in front of the empty line. -/
theorem headerOf_append {h : List Char} (hh : Header h) (b : List Char) :
    headerOf (h ++ '\n' :: b) = h := by
  rw [headerOf, bodyOf_append hh, Nat.add_sub_cancel, List.take_left]

/-- The empty line and the body are the rest. -/
theorem restOf_append {h : List Char} (hh : Header h) (b : List Char) :
    restOf (h ++ '\n' :: b) = '\n' :: b := by
  rw [restOf, bodyOf_append hh, Nat.add_sub_cancel, List.drop_left]

/-- A mail has no empty line, or a header with the separator behind it. -/
theorem headed (text : List Char) :
    bodyOf text = 0 ∧ ['\n'] ∉ lines text ∨
      ∃ h b, Header h ∧ text = h ++ '\n' :: b := by
  by_cases hmem : ['\n'] ∈ lines text
  · obtain ⟨ls, rest, hsplit, hnot⟩ := List.eq_append_cons_of_mem hmem
    have hruled : Ruled (ls ++ ['\n'] :: rest) := by
      rw [← hsplit]
      exact ruled_lines text
    have hls : ∀ l ∈ ls, Complete l ∧ l ≠ ['\n'] := fun l hl =>
      ⟨hruled.complete_of_append l hl, fun heq => hnot (heq ▸ hl)⟩
    refine Or.inr ⟨ls.flatten, rest.flatten, (header_flatten hls).2, ?_⟩
    rw [← flatten_lines text, hsplit, List.flatten_append]
    rfl
  · exact Or.inl ⟨findBodyFrom_eq_zero hmem 0, hmem⟩

/-- Without an empty line there is no header. -/
theorem headerOf_of_bodyOf {text : List Char} (h : bodyOf text = 0) : headerOf text = [] := by
  rw [headerOf, h]
  rfl

/-- The body begins inside of the text. -/
theorem bodyOf_le (text : List Char) : bodyOf text ≤ text.length := by
  rcases headed text with ⟨hbody, -⟩ | ⟨h, b, hh, rfl⟩
  · omega
  · rw [bodyOf_append hh, List.length_append, List.length_cons]
    omega

/-! ## The folds of the header -/

/-- No line is folded where there is no header. -/
theorem fillFrom_zero (off : ℕ) (s : List Char) : fillFrom 0 off s = [] := by
  induction s generalizing off with
  | nil => rfl
  | cons c s ih => simp [fillFrom, ih]

/-- The folds are those of the header. -/
theorem fillFrom_append (off : ℕ) (h b : List Char) :
    fillFrom (off + h.length + 1) off (h ++ '\n' :: b) = folds off h := by
  induction h generalizing off with
  | nil => simp [fillFrom, folds]
  | cons c h ih =>
    have hbody : off + (c :: h).length + 1 = off + 1 + h.length + 1 := by
      rw [List.length_cons]
      omega
    have hnext : (h ++ '\n' :: b).head?.any isBlank = continues h :=
      continues_append_break rfl h
    rw [List.cons_append, fillFrom, folds, hbody, ih, hnext]
    have hle : ¬ off + 1 + h.length + 1 ≤ off + 1 := by omega
    by_cases hc : c = '\n'
    · rw [if_pos hc, if_neg hle]
      simp [hc]
    · rw [if_neg hc, if_neg fun h => hc h.1]

/-- `fill_wrapped` finds the folds of the header. -/
theorem fillFrom_eq (text : List Char) :
    fillFrom (bodyOf text) 0 text = folds 0 (headerOf text) := by
  rcases headed text with ⟨hbody, -⟩ | ⟨h, b, hh, rfl⟩
  · rw [hbody, fillFrom_zero, headerOf_of_bodyOf hbody]
    rfl
  · have hfill := fillFrom_append 0 h b
    rw [Nat.zero_add] at hfill
    rw [bodyOf_append hh, headerOf_append hh, hfill]

/-! ## The fields of the header -/

/-- The fields of a header. -/
structure Headers (fs : List (List Char)) : Prop extends Cut fs where
  full : ∀ f ∈ fs, ['\n'] ∉ lines f

namespace Headers

variable {fs : List (List Char)}

/-- Some of the fields of a header. -/
theorem sublist {gs : List (List Char)} (h : Headers fs) (hsub : gs.Sublist fs) : Headers gs :=
  ⟨h.toCut.sublist hsub, fun f hf => h.full f (hsub.subset hf)⟩

/-- The fields of a header make one. -/
theorem header (h : Headers fs) : Header fs.flatten := by
  induction fs with
  | nil => exact header_nil
  | cons f fs ih =>
    have hf : Header f := by
      obtain ⟨b, rfl⟩ := (h.field f List.mem_cons_self).ends
      intro l hl
      exact ⟨complete_lines b l hl, fun heq => h.full _ List.mem_cons_self (heq ▸ hl)⟩
    rw [List.flatten_cons]
    exact hf.append (ih (h.sublist (List.sublist_cons_self f fs)))

end Headers

theorem Header.headers {h : List Char} (hh : Header h) : Headers (fields h) := by
  have hcut : Cut (fields h) := cut_fields hh.getLast?
  refine ⟨hcut, fun f hf hempty => ?_⟩
  obtain ⟨p, q, hsplit⟩ := List.append_of_mem hf
  rw [hsplit] at hcut
  -- the lines of the field are lines of the header
  have htext : h = p.flatten ++ (f ++ q.flatten) := by
    rw [← flatten_fields h, hsplit, List.flatten_append, List.flatten_cons]
  have hfront : lines (p.flatten ++ (f ++ q.flatten)) = lines p.flatten ++ lines (f ++ q.flatten) := by
    rcases (hcut.sublist (List.sublist_append_left p (f :: q))).ends_flatten with rfl | ⟨b, hb⟩
    · rfl
    · rw [hb, lines_append]
  have hback : lines (f ++ q.flatten) = lines f ++ lines q.flatten := by
    obtain ⟨b, rfl⟩ := (hcut.field f (by simp)).ends
    rw [lines_append]
  refine (hh ['\n'] ?_).2 rfl
  rw [htext, hfront, hback]
  simp [hempty]

/-- A complete line is a field. -/
theorem field_of_complete {l : List Char} (h : Complete l) : Field l := by
  obtain ⟨b, hb, rfl⟩ := h
  induction b with
  | nil => exact .newline
  | cons c b ih =>
    rw [List.mem_cons, not_or] at hb
    exact .cons (fun hc => absurd hc.symm hb.1) (ih hb.2)

/-- Setting the folds of a field to another character does not make it the continuation of one. -/
theorem continues_setFolds {f : List Char} (hfull : ['\n'] ∉ lines f) (ch : Char) :
    continues (setFolds ch f) = continues f := by
  cases f with
  | nil => rfl
  | cons c s =>
    have hc : c ≠ '\n' := by
      rintro rfl
      exact hfull (by simp [lines])
    rw [setFolds, if_neg fun h => hc h.1]
    rfl

namespace Headers

variable {fs : List (List Char)} {ch : Char}

/-- Set out as one line each, the fields are fields. -/
theorem unfolded (h : Headers fs) (hch : ch ≠ '\n') : Headers (fs.map (setFolds ch)) := by
  refine ⟨⟨fun g hg => ?_, fun g hg => ?_⟩, fun g hg => ?_⟩
  · obtain ⟨f, hf, rfl⟩ := List.mem_map.mp hg
    exact field_of_complete ((h.field f hf).complete_setFolds hch)
  · rw [← List.map_tail] at hg
    obtain ⟨f, hf, rfl⟩ := List.mem_map.mp hg
    rw [continues_setFolds (h.full f (List.mem_of_mem_tail hf))]
    exact h.breaks f hf
  · obtain ⟨f, hf, rfl⟩ := List.mem_map.mp hg
    have hne := (h.field f hf).setFolds_ne_newline (h.full f hf) ch
    obtain ⟨b, hb, hset⟩ := (h.field f hf).complete_setFolds hch
    rw [hset] at hne ⊢
    rw [lines_append_newline hb []]
    simpa [lines] using hne.symm

end Headers

/-- A line has no folds. -/
theorem folds_of_complete {l : List Char} (h : Complete l) (off : ℕ) : folds off l = [] := by
  obtain ⟨b, hb, rfl⟩ := h
  induction b generalizing off with
  | nil => rfl
  | cons c b ih =>
    rw [List.mem_cons, not_or] at hb
    rw [List.cons_append, folds, if_neg fun hc => hb.1 hc.1.symm, ih _ hb.2]

end Fdm.Wrap
