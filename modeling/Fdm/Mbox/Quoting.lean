import Fdm.Mbox.Deliver

/-!
# Quoting and unquoting

How the lines that `deliver_mbox_deliver` writes are read back by `fetch_mbox_state_mail`,
and what `fetch_enqueue` makes of the text.

* `textOf_quoteLines`: a mail that does not begin like a quoted line is read back as it was;
* `keepLines_blank`: what is kept of a mail that is too large;
* `trimmed_fromLine`: when the `From ` line is taken off.
-/

namespace Fdm.Mbox

open Fdm.Fetch Lib.Lines

/-! ## Lines with and without their newline -/

/-- The characters in front of a text do not matter when they end before its newline. -/
theorem fromPrefix_append_newline {s t : List Char} :
    Mail.fromPrefix <+: s ++ '\n' :: t ↔ Mail.fromPrefix <+: s := by
  constructor
  · intro h
    by_cases hlen : Mail.fromPrefix.length ≤ s.length
    · exact List.prefix_of_prefix_length_le h (List.prefix_append _ _) hlen
    · -- the newline would be one of the five characters
      have hshort : s.length < Mail.fromPrefix.length := by omega
      have hget := h.getElem hshort
      rw [List.getElem_append_right (Nat.le_refl _)] at hget
      have hmem : Mail.fromPrefix[s.length] ∈ Mail.fromPrefix := List.getElem_mem hshort
      rw [hget] at hmem
      simp [Mail.fromPrefix] at hmem
  · intro h
    exact h.trans (List.prefix_append _ _)

theorem dropWhile_newline (s t : List Char) :
    (s ++ '\n' :: t).dropWhile (· = '>') = s.dropWhile (· = '>') ++ '\n' :: t := by
  induction s with
  | nil => rfl
  | cons c s ih =>
    rw [List.cons_append]
    by_cases hc : c = '>'
    · rw [List.dropWhile_cons_of_pos (by simpa using hc), ih,
        List.dropWhile_cons_of_pos (by simpa using hc)]
    · rw [List.dropWhile_cons_of_neg (by simpa using hc),
        List.dropWhile_cons_of_neg (by simpa using hc), List.cons_append]

/-- Whether a text looks quoted is decided on its first line. -/
theorem looksQuoted_append_newline {s t : List Char} :
    LooksQuoted (s ++ '\n' :: t) ↔ LooksQuoted s := by
  rw [LooksQuoted, LooksQuoted, dropWhile_newline, fromPrefix_append_newline]

/-- A `From ` line has to be quoted. -/
theorem looksQuoted_of_from {s : List Char} (h : Mail.fromPrefix <+: s) : LooksQuoted s := by
  obtain ⟨t, rfl⟩ := h
  rw [LooksQuoted, Mail.fromPrefix]
  exact List.prefix_append _ _

theorem quote_eq (l : List Char) : quote l = if LooksQuoted l then '>' :: l else l := rfl

theorem unquote_eq (l : List Char) :
    unquote l = if l.head? = some '>' ∧ LooksQuoted l then l.tail else l := rfl

theorem quote_line (b : List Char) :
    quote (b ++ ['\n']) = if LooksQuoted b then '>' :: b ++ ['\n'] else b ++ ['\n'] := by
  have hlooks : LooksQuoted (b ++ ['\n']) ↔ LooksQuoted b := looksQuoted_append_newline
  rw [quote_eq]
  by_cases h : LooksQuoted b
  · rw [if_pos h, if_pos (hlooks.mpr h), List.cons_append]
  · rw [if_neg h, if_neg (mt hlooks.mp h)]

/-- The newline of a line is no part of what is quoted. -/
theorem quote_newline (b : List Char) : quote (b ++ ['\n']) = quote b ++ ['\n'] := by
  rw [quote_line, quote_eq]
  by_cases h : LooksQuoted b
  · rw [if_pos h, if_pos h]
  · rw [if_neg h, if_neg h]

/-- A line with its newline keeps it. -/
theorem complete_quote {l : List Char} (h : Complete l) : Complete (quote l) := by
  obtain ⟨b, hb, rfl⟩ := h
  rw [quote_line]
  by_cases hlooks : LooksQuoted b
  · rw [if_pos hlooks]
    exact ⟨'>' :: b, by simp [hb], rfl⟩
  · rw [if_neg hlooks]
    exact ⟨b, hb, rfl⟩

/-- A quoted line is no `From ` line. -/
theorem not_isFrom_quote {l : List Char} (h : Complete l) : ¬ IsFrom (quote l) := by
  obtain ⟨b, hb, rfl⟩ := h
  rw [quote_line, IsFrom]
  by_cases hlooks : LooksQuoted b
  · rw [if_pos hlooks, chomp_line (by simp [hb])]
    rintro ⟨t, ht⟩
    simp [Mail.fromPrefix] at ht
  · rw [if_neg hlooks, chomp_line hb]
    exact mt looksQuoted_of_from hlooks

/-- Other lines are taken as they are. -/
theorem unquote_of_not_looksQuoted {b : List Char} (h : ¬ LooksQuoted b) : unquote b = b := by
  rw [unquote_eq, if_neg]
  rintro ⟨-, hlooks⟩
  exact h hlooks

/-- A quoted line is unquoted to what it was. -/
theorem unquote_quote {l : List Char} (h : Complete l) : unquote (chomp (quote l)) ++ ['\n'] = l := by
  obtain ⟨b, hb, rfl⟩ := h
  rw [quote_line]
  by_cases hlooks : LooksQuoted b
  · rw [if_pos hlooks, chomp_line (by simp [hb])]
    have hhead : ('>' :: b).head? = some '>' ∧ LooksQuoted ('>' :: b) := ⟨rfl, hlooks⟩
    rw [unquote_eq, if_pos hhead, List.tail_cons]
  · rw [if_neg hlooks, chomp_line hb, unquote_of_not_looksQuoted hlooks]

/-! ## The lines of a mail in the file -/

/-- A mail that is written has a newline at least. -/
theorem completed_ne_nil (data : List Char) : completed data ≠ [] := by
  rw [completed]
  by_cases h : data.getLast? = some '\n'
  · rw [if_pos h]
    rintro rfl
    cases h
  · rw [if_neg h]
    simp

theorem completed_eq (data : List Char) : completed data = (completed data).dropLast ++ ['\n'] := by
  rw [completed]
  by_cases h : data.getLast? = some '\n'
  · rw [if_pos h]
    obtain ⟨s, rfl⟩ := List.getLast?_eq_some_iff.mp h
    rw [List.dropLast_concat]
  · rw [if_neg h, List.dropLast_concat]

/-- Each line of it has one. -/
theorem complete_completed (data : List Char) : ∀ l ∈ lines (completed data), Complete l := by
  rw [completed_eq]
  exact complete_lines _

/-- What is written of a mail behind its `From ` line. -/
def body (data : List Char) : List Char := (quoteLines (lines data)).flatten ++ closing data

/-- Lines are quoted one by one, but for the first. -/
theorem quoteLines_append {ls : List (List Char)} (hne : ls ≠ []) (l : List Char) :
    quoteLines (ls ++ [l]) = quoteLines ls ++ [quote l] := by
  cases ls with
  | nil => exact absurd rfl hne
  | cons x ls => simp [quoteLines]

/-- The lines written are those of the completed mail, quoted, and a blank one. -/
theorem body_eq (data : List Char) :
    body data = (quoteLines (lines (completed data)) ++ [['\n']]).flatten := by
  rw [body, closing, completed]
  by_cases h : data.getLast? = some '\n'
  · rw [if_pos h, if_pos h]
    simp
  · rw [if_neg h, if_neg h]
    rcases lines_newline (ruled_lines data) with hls | ⟨ls, b, hb, hls, hnew⟩
    · -- a text whose lines are all complete is empty, or ends with a newline
      rw [flatten_lines] at hls
      have hcomplete := complete_lines data
      rw [hls] at hcomplete
      cases hdata : lines data with
      | nil =>
        have hnil : data = [] := by
          rw [← flatten_lines data, hdata]
          rfl
        rw [hnil]
        rfl
      | cons l ls =>
        exfalso
        apply h
        obtain ⟨ls', l', hconcat⟩ := (List.eq_nil_or_concat (lines data)).resolve_left
          (by rw [hdata]; simp)
        obtain ⟨b, -, hb⟩ := hcomplete l' (by rw [hconcat]; simp)
        rw [← flatten_lines data, hconcat, hb]
        simp
    · rw [flatten_lines] at hnew
      rw [hnew, hls]
      cases ls with
      | nil => simp [quoteLines]
      | cons x ls =>
        rw [quoteLines_append (by simp), quoteLines_append (by simp), quote_newline]
        simp

theorem complete_quoteLines {ls : List (List Char)} (h : ∀ l ∈ ls, Complete l) :
    ∀ l ∈ quoteLines ls, Complete l := by
  cases ls with
  | nil => simp [quoteLines]
  | cons x ls =>
    intro l hl
    rcases List.mem_cons.mp hl with rfl | hl
    · exact h l List.mem_cons_self
    · obtain ⟨y, hy, rfl⟩ := List.mem_map.mp hl
      exact complete_quote (h y (List.mem_cons_of_mem x hy))

/-- The lines of a mail in the file, with the blank one behind it. -/
def bodyLines (data : List Char) : List (List Char) :=
  quoteLines (lines (completed data)) ++ [['\n']]

theorem complete_newline : Complete ['\n'] := ⟨[], by simp, rfl⟩

theorem complete_bodyLines (data : List Char) : ∀ l ∈ bodyLines data, Complete l := by
  intro l hl
  rcases List.mem_append.mp hl with hl | hl
  · exact complete_quoteLines (complete_completed data) l hl
  · rw [List.mem_singleton.mp hl]
    exact complete_newline

/-- The lines of a mail, in front of the rest of the file. -/
theorem lines_body (data rest : List Char) :
    lines (body data ++ rest) = bodyLines data ++ lines rest := by
  have hruled : Ruled (bodyLines data ++ lines rest) :=
    Ruled.complete_append (complete_bodyLines data) (ruled_lines rest)
  rw [← hruled.lines_flatten, List.flatten_append, flatten_lines rest, body_eq]
  rfl

/-- Lines that were quoted are read back. -/
theorem textOf_map_quote {ls : List (List Char)} (h : ∀ l ∈ ls, Complete l) :
    textOf (ls.map quote) = ls.flatten := by
  induction ls with
  | nil => rfl
  | cons x ls ih =>
    rw [List.map_cons, textOf, List.flatMap_cons, unquote_quote (h x List.mem_cons_self),
      List.flatten_cons, ← ih fun y hy => h y (List.mem_cons_of_mem x hy)]
    rfl

/-- The text of the first line is kept, but for the `>` of a line that looks quoted. -/
theorem textOf_quoteLines (data : List Char) :
    textOf (quoteLines (lines (completed data)))
      = if data.head? = some '>' ∧ LooksQuoted data then (completed data).tail
        else completed data := by
  have hcomplete := complete_completed data
  have hflat := flatten_lines (completed data)
  cases hls : lines (completed data) with
  | nil =>
    rw [hls] at hflat
    exact absurd hflat.symm (completed_ne_nil data)
  | cons l ls =>
    rw [hls] at hcomplete hflat
    obtain ⟨b, hb, rfl⟩ := hcomplete l List.mem_cons_self
    have hrest : textOf (ls.map quote) = ls.flatten :=
      textOf_map_quote fun x hx => hcomplete x (List.mem_cons_of_mem _ hx)
    have htext : textOf (quoteLines ((b ++ ['\n']) :: ls)) = unquote b ++ ['\n'] ++ ls.flatten := by
      rw [quoteLines, textOf, List.flatMap_cons, chomp_line hb, ← hrest]
      rfl
    rw [List.flatten_cons, List.append_assoc] at hflat
    -- the first line of the mail is the first line of the completed one
    have hdata : data = b ∧ ls.flatten = [] ∨ ∃ t, data = b ++ '\n' :: t := by
      rw [completed] at hflat
      by_cases h : data.getLast? = some '\n'
      · rw [if_pos h] at hflat
        exact Or.inr ⟨ls.flatten, hflat.symm⟩
      · rw [if_neg h] at hflat
        rcases List.eq_nil_or_concat ls.flatten with hnil | ⟨t, c, ht⟩
        · rw [hnil, List.append_nil] at hflat
          exact Or.inl ⟨(List.append_cancel_right hflat).symm, hnil⟩
        · rw [ht] at hflat
          refine Or.inr ⟨t, ?_⟩
          rw [List.concat_eq_append, ← List.append_assoc, ← List.append_assoc] at hflat
          rw [← List.append_inj_left' hflat rfl]
          simp
    have hhead : data.head? = some '>' ∧ LooksQuoted data ↔ b.head? = some '>' ∧ LooksQuoted b := by
      rcases hdata with ⟨rfl, -⟩ | ⟨t, rfl⟩
      · exact Iff.rfl
      · rw [looksQuoted_append_newline]
        cases b with
        | nil => simp
        | cons c b => simp
    rw [htext, unquote_eq]
    by_cases h : b.head? = some '>' ∧ LooksQuoted b
    · rw [if_pos h, if_pos (hhead.mpr h), ← hflat]
      cases b with
      | nil => cases h.1
      | cons c b => simp
    · rw [if_neg h, if_neg (mt hhead.mp h), ← hflat]
      simp

/-! ## The lines that are kept -/

/-- The text that `fetch_mbox_state_mail` makes of the lines of a mail. -/
def keepLines (max : ℕ) : List (List Char) → List Char → List Char
  | [], text => text
  | l :: ls, text =>
    if max < text.length then keepLines max ls text
    else keepLines max ls (text ++ unquote (chomp l) ++ ['\n'])

/-- One more line is kept, unless the mail is too big. -/
theorem keepLines_concat (max : ℕ) (ls : List (List Char)) (l text : List Char) :
    keepLines max (ls ++ [l]) text =
      if max < (keepLines max ls text).length then keepLines max ls text
      else keepLines max ls text ++ unquote (chomp l) ++ ['\n'] := by
  induction ls generalizing text with
  | nil => rfl
  | cons x ls ih =>
    rw [List.cons_append, keepLines, keepLines]
    by_cases h : max < text.length
    · rw [if_pos h, if_pos h, ih]
    · rw [if_neg h, if_neg h, ih]

/-- Nothing is added to a mail that is too big. -/
theorem keepLines_over {max : ℕ} {text : List Char} (h : max < text.length)
    (ls : List (List Char)) : keepLines max ls text = text := by
  induction ls with
  | nil => rfl
  | cons l ls ih => rw [keepLines, if_pos h, ih]

/-- The text is a front part of that of all lines, and all of it when it is not too large. -/
theorem keepLines_spec (max : ℕ) (ls : List (List Char)) (text : List Char) :
    text <+: keepLines max ls text ∧ keepLines max ls text <+: text ++ textOf ls ∧
      ((text ++ textOf ls).length ≤ max → keepLines max ls text = text ++ textOf ls) ∧
      (max < (text ++ textOf ls).length → max < (keepLines max ls text).length) := by
  induction ls generalizing text with
  | nil => simp [keepLines, textOf]
  | cons l ls ih =>
    have hall : text ++ textOf (l :: ls) = text ++ unquote (chomp l) ++ ['\n'] ++ textOf ls := by
      simp [textOf]
    rw [keepLines, hall]
    by_cases h : max < text.length
    · rw [if_pos h, keepLines_over h]
      refine ⟨List.prefix_refl _, ?_, fun hfit => ?_, fun _ => h⟩
      · rw [List.append_assoc, List.append_assoc]
        exact List.prefix_append _ _
      · simp only [List.length_append] at hfit
        omega
    · rw [if_neg h]
      obtain ⟨hfront, hpart, hfit, hover⟩ := ih (text ++ unquote (chomp l) ++ ['\n'])
      refine ⟨List.IsPrefix.trans ?_ hfront, hpart, hfit, hover⟩
      rw [List.append_assoc]
      exact List.prefix_append _ _

/-- What is handed out of a mail with a blank line behind it. -/
def handed (max : ℕ) (ls : List (List Char)) : List Char :=
  let text := keepLines max (ls ++ [['\n']]) []
  text.take (text.length - 2)

/-- The text without its last newline, or much less when that would be too large. -/
theorem handed_spec (max : ℕ) (ls : List (List Char)) :
    ((textOf ls).length ≤ max → handed max ls = (textOf ls).dropLast) ∧
      (max < (textOf ls).length →
        handed max ls <+: textOf ls ∧ (handed max ls).length ≤ (textOf ls).length - 2) := by
  obtain ⟨-, hpart, hfit, hover⟩ := keepLines_spec max ls []
  rw [List.nil_append] at hpart hfit hover
  have hblank : unquote (chomp ['\n']) = [] := by decide
  constructor
  · intro h
    have htext : keepLines max (ls ++ [['\n']]) [] = textOf ls ++ ['\n'] := by
      rw [keepLines_concat, hfit h, if_neg (by omega), hblank, List.append_nil]
    have hlen : (textOf ls ++ ['\n']).length - 2 = (textOf ls).length - 1 := by
      rw [List.length_append, List.length_singleton]
      omega
    rw [handed, htext, hlen, List.take_append_of_le_length (by omega), List.dropLast_eq_take]
  · intro h
    have htext : keepLines max (ls ++ [['\n']]) [] = keepLines max ls [] := by
      rw [keepLines_concat, if_pos (hover h)]
    have hle := hpart.length_le
    rw [handed, htext]
    refine ⟨(List.take_prefix _ _).trans hpart, ?_⟩
    rw [List.length_take]
    omega

/-! ## Taking off the `From ` line -/

/-- The text of a mail behind `trim_from`. -/
def trimmed (text : List Char) : List Char :=
  ({ data := text } : Mail FetchMboxMail).withBody.trimFrom.data

/-- There is no body without an empty line. -/
theorem findBodyFrom_eq_zero {off : ℕ} {ls : List (List Char)} :
    Mail.findBodyFrom off ls = 0 ↔ ['\n'] ∉ ls := by
  induction ls generalizing off with
  | nil => simp [Mail.findBodyFrom]
  | cons l ls ih =>
    rw [Mail.findBodyFrom]
    by_cases h : l = ['\n']
    · rw [if_pos h, h]
      simp
    · rw [if_neg h, ih]
      have hne : ['\n'] ≠ l := fun heq => h heq.symm
      simp [hne]

/-- A text without a `From ` line is not trimmed. -/
theorem trimmed_of_not_from {text : List Char} (h : ¬ Mail.fromPrefix <+: text) :
    trimmed text = text := by
  unfold trimmed Mail.trimFrom
  split_ifs with hbody hfrom
  · rfl
  · exact absurd hfrom h
  · rfl

/-- Neither is one without an empty line. -/
theorem trimmed_of_not_mem {text : List Char} (h : ['\n'] ∉ lines text) : trimmed text = text := by
  have hbody : ({ data := text } : Mail FetchMboxMail).withBody.body = 0 := findBodyFrom_eq_zero.mpr h
  unfold trimmed Mail.trimFrom
  rw [if_pos (Or.inl hbody)]
  rfl

/-- What `trim_from` leaves is always the end of the mail. -/
theorem trimmed_suffix (text : List Char) : trimmed text <:+ text := by
  unfold trimmed Mail.trimFrom
  split_ifs
  · exact List.suffix_refl _
  · exact List.drop_suffix _ _
  · exact List.suffix_refl _

/-- A `From ` line in front of a text is taken off when there is an empty line behind it. -/
theorem trimmed_fromLine {f : List Char} (hfrom : Mail.fromPrefix <+: f) (hf : '\n' ∉ f)
    (v : List Char) :
    trimmed (f ++ '\n' :: v) = if ['\n'] ∈ lines v then v else f ++ '\n' :: v := by
  have hlines : lines (f ++ '\n' :: v) = (f ++ ['\n']) :: lines v := lines_append_newline hf v
  have hline : ['\n'] ≠ f ++ ['\n'] := by
    intro h
    have hlen := congrArg List.length h
    have hle := hfrom.length_le
    rw [List.length_append, List.length_singleton] at hlen
    rw [Mail.fromPrefix] at hle
    simp at hle
    omega
  by_cases h : ['\n'] ∈ lines v
  · rw [if_pos h]
    have hbody : ({ data := f ++ '\n' :: v } : Mail FetchMboxMail).withBody.body ≠ 0 := by
      rw [Ne, Mail.withBody, Mail.findBody, findBodyFrom_eq_zero, hlines]
      simp [h]
    have hsize : ¬ ({ data := f ++ '\n' :: v } : Mail FetchMboxMail).withBody.size < 5 := by
      have hle := hfrom.length_le
      rw [Mail.fromPrefix] at hle
      show ¬ (f ++ '\n' :: v).length < 5
      simp at hle ⊢
      omega
    have hlong : Mail.fromPrefix <+: ({ data := f ++ '\n' :: v } : Mail FetchMboxMail).withBody.data :=
      hfrom.trans (List.prefix_append _ _)
    unfold trimmed Mail.trimFrom
    rw [if_neg (not_or.mpr ⟨hbody, hsize⟩), if_neg (not_not.mpr hlong)]
    show (f ++ '\n' :: v).drop ((lines (f ++ '\n' :: v)).headD []).length = v
    have hsplit : f ++ '\n' :: v = f ++ ['\n'] ++ v := by simp
    rw [hlines, List.headD_cons, hsplit, List.drop_left]
  · rw [if_neg h]
    apply trimmed_of_not_mem
    rw [hlines]
    simp [h, hline]

end Fdm.Mbox
