import Fdm.Mbox.Quoting

/-!
# What comes back of one mail

A mail that was delivered to an mbox is handed out by the fetcher as a text of its own; this
module says when `fetch_enqueue` makes the same mail of it.

* `later_returns`, `later_same`: a mail behind another one;
* `first_returns`, `first_same`: the first mail of the mbox, whose `From ` line is in the text.
-/

namespace Fdm.Mbox

open Fdm.Fetch Lib.Lines

/-- What `fetch_enqueue` does with a mail: the fetch is aborted, the mail is deleted, or it is
queued. -/
inductive Enqueued
  | refused
  | deleted
  | queued (text : List Char)
deriving DecidableEq, Repr

/-- `fetch_enqueue` for the text of a mail. -/
def enqueued (conf : Conf) (text : List Char) : Enqueued :=
  if conf.maxSize < text.length then
    if conf.delBig then .deleted else .refused
  else if trimmed text = [] then .refused
  else .queued (trimmed text)

/-- What is queued is the trimmed text, and not empty. -/
theorem enqueued_queued {conf : Conf} {text f : List Char} (h : enqueued conf text = .queued f) :
    f = trimmed text ∧ f ≠ [] := by
  unfold enqueued at h
  split_ifs at h with hbig hdel hempty
  · cases h
    exact ⟨rfl, hempty⟩

/-- A text of a permitted size is queued. -/
theorem enqueued_of_le {conf : Conf} {text : List Char} (hle : text.length ≤ conf.maxSize)
    (hne : trimmed text ≠ []) : enqueued conf text = .queued (trimmed text) := by
  rw [enqueued, if_neg (Nat.not_lt.mpr hle), if_neg hne]

/-! ## Texts that are the same -/

/-- The same text has a newline more at most. -/
theorem SameText.length_le {s t : List Char} (h : SameText s t) : t.length ≤ s.length + 1 := by
  rcases h with rfl | rfl | rfl
  · omega
  · simp
  · simp
    omega

/-- The newline that completes a mail does not matter. -/
theorem sameText_dropLast (data : List Char) : SameText (completed data).dropLast data := by
  rw [completed]
  by_cases h : data.getLast? = some '\n'
  · obtain ⟨s, rfl⟩ := List.getLast?_eq_some_iff.mp h
    rw [if_pos h, List.dropLast_concat]
    exact Or.inr (Or.inl rfl)
  · rw [if_neg h, List.dropLast_concat]
    exact Or.inl rfl

/-- A text that has lost more than a newline at its end. -/
theorem not_sameText {f data : List Char} (h : f.length + 2 ≤ (completed data).length) :
    ¬ SameText f data := by
  intro hsame
  rw [completed] at h
  by_cases hlast : data.getLast? = some '\n'
  · rw [if_pos hlast] at h
    have hle := hsame.length_le
    omega
  · rw [if_neg hlast, List.length_append, List.length_singleton] at h
    rcases hsame with rfl | rfl | rfl
    · omega
    · simp at hlast
    · rw [List.length_append, List.length_singleton] at h
      omega

/-- The same text begins in the same way. -/
theorem SameText.from {f data : List Char} (h : SameText f data) (hfrom : Mail.fromPrefix <+: f) :
    Mail.fromPrefix <+: data := by
  rcases h with rfl | rfl | rfl
  · exact hfrom
  · exact hfrom.trans (List.prefix_append _ _)
  · exact fromPrefix_append_newline.mp hfrom

/-- The text that is written of a mail, unquoted again. -/
def readBack (data : List Char) : List Char := textOf (quoteLines (lines (completed data)))

/-- A mail that does not look quoted comes back. -/
theorem readBack_of_not_looksQuoted {data : List Char} (h : ¬ LooksQuoted data) :
    readBack data = completed data := by
  rw [readBack, textOf_quoteLines, if_neg fun hq => h hq.2]

/-- A mail that looks quoted loses its first character. -/
theorem length_readBack {data : List Char} (hfrom : ¬ Mail.fromPrefix <+: data)
    (h : LooksQuoted data) : (readBack data).length + 1 = (completed data).length := by
  have hhead : data.head? = some '>' := by
    cases data with
    | nil => exact absurd h (by decide)
    | cons c data =>
      by_cases hc : c = '>'
      · rw [hc]
        rfl
      · rw [LooksQuoted, List.dropWhile_cons_of_neg (by simpa using hc)] at h
        exact absurd h hfrom
  have hpos := List.length_pos_iff.mpr (completed_ne_nil data)
  rw [readBack, textOf_quoteLines, if_pos ⟨hhead, h⟩, List.length_tail]
  omega

/-! ## A mail behind another one -/

/-- The beginning of a mail without a `From ` line has none. -/
theorem not_from_of_start {s data : List Char} (hfrom : ¬ Mail.fromPrefix <+: data)
    (h : s <+: completed data) : ¬ Mail.fromPrefix <+: s := by
  intro hs
  have hcompleted := hs.trans h
  rw [completed] at hcompleted
  by_cases hlast : data.getLast? = some '\n'
  · rw [if_pos hlast] at hcompleted
    exact hfrom hcompleted
  · rw [if_neg hlast] at hcompleted
    exact hfrom (fromPrefix_append_newline.mp hcompleted)

/-- A mail behind another one comes back. -/
theorem later_returns {conf : Conf} {data : List Char} (hlooks : ¬ LooksQuoted data)
    (hfits : (completed data).length ≤ conf.maxSize) (hcontent : (completed data).dropLast ≠ []) :
    enqueued conf (handed conf.maxSize (quoteLines (lines (completed data))))
      = .queued (completed data).dropLast := by
  have hback := readBack_of_not_looksQuoted hlooks
  rw [readBack] at hback
  have hhanded : handed conf.maxSize (quoteLines (lines (completed data)))
      = (completed data).dropLast := by
    rw [(handed_spec _ _).1 (by rw [hback]; exact hfits), hback]
  have htrim : trimmed (completed data).dropLast = (completed data).dropLast :=
    trimmed_of_not_from
      (not_from_of_start (mt looksQuoted_of_from hlooks) (List.dropLast_prefix _))
  rw [hhanded, enqueued_of_le]
  · rw [htrim]
  · rw [List.length_dropLast]
    omega
  · rw [htrim]
    exact hcontent

/-- It does only then. -/
theorem later_same {conf : Conf} {data f : List Char} (hfrom : ¬ Mail.fromPrefix <+: data)
    (hqueued : enqueued conf (handed conf.maxSize (quoteLines (lines (completed data)))) = .queued f)
    (hsame : SameText f data) :
    ¬ LooksQuoted data ∧ (completed data).length ≤ conf.maxSize ∧
      (completed data).dropLast ≠ [] := by
  obtain ⟨hf, hne⟩ := enqueued_queued hqueued
  have hpos := List.length_pos_iff.mpr hne
  have hle := (trimmed_suffix (handed conf.maxSize (quoteLines (lines (completed data))))).length_le
  rw [← hf] at hle
  obtain ⟨hfit, hover⟩ := handed_spec conf.maxSize (quoteLines (lines (completed data)))
  change (readBack data).length ≤ conf.maxSize → _ = (readBack data).dropLast at hfit
  change conf.maxSize < (readBack data).length → _ <+: readBack data ∧
    _ ≤ (readBack data).length - 2 at hover
  by_cases hsize : (readBack data).length ≤ conf.maxSize
  · rw [hfit hsize, List.length_dropLast] at hle
    by_cases hlooks : LooksQuoted data
    · have hback := length_readBack hfrom hlooks
      exact absurd hsame (not_sameText (by omega))
    · have hback := readBack_of_not_looksQuoted hlooks
      rw [hback] at hsize hle
      refine ⟨hlooks, hsize, fun hnil => ?_⟩
      have hlen := congrArg List.length hnil
      rw [List.length_dropLast, List.length_nil] at hlen
      omega
  · have hshort := (hover (by omega)).2
    by_cases hlooks : LooksQuoted data
    · have hback := length_readBack hfrom hlooks
      exact absurd hsame (not_sameText (by omega))
    · rw [readBack_of_not_looksQuoted hlooks] at hshort
      exact absurd hsame (not_sameText (by omega))

/-! ## The first mail -/

section First

/-- The text of the first mail has its `From ` line. -/
theorem textOf_fromLine (f data : List Char) :
    textOf ((f ++ ['\n']) :: quoteLines (lines (completed data)))
      = unquote (chomp (f ++ ['\n'])) ++ '\n' :: readBack data := by
  rw [textOf, List.flatMap_cons, List.append_assoc]
  rfl

variable {f : List Char} (hf : '\n' ∉ f) (hstarts : Mail.fromPrefix <+: f)

include hf hstarts in
/-- A `From ` line is not quoted. -/
theorem unquote_fromLine : unquote (chomp (f ++ ['\n'])) = f := by
  rw [chomp_line hf, unquote_eq, if_neg]
  rintro ⟨hhead, -⟩
  obtain ⟨t, rfl⟩ := hstarts
  simp [Mail.fromPrefix] at hhead

include hf hstarts in
/-- The text has all of the `From ` line but its last character, at least. -/
theorem fromLine_handed (max : ℕ) (ls : List (List Char)) :
    f.dropLast <+: handed max ((f ++ ['\n']) :: ls) := by
  have hkeep : keepLines max ((f ++ ['\n']) :: ls ++ [['\n']]) []
      = keepLines max (ls ++ [['\n']]) (f ++ ['\n']) := by
    rw [List.cons_append, keepLines, if_neg (by simp), unquote_fromLine hf hstarts]
    rfl
  have hfront := (keepLines_spec max (ls ++ [['\n']]) (f ++ ['\n'])).1
  have hlen := hfront.length_le
  rw [List.length_append, List.length_singleton] at hlen
  rw [handed, hkeep]
  refine List.prefix_of_prefix_length_le
    (((List.dropLast_prefix f).trans (List.prefix_append _ _)).trans hfront)
    (List.take_prefix _ _) ?_
  rw [List.length_take, List.length_dropLast]
  omega

include hf hstarts in
/-- The first mail comes back, without its `From ` line. -/
theorem first_returns {conf : Conf} {data : List Char} (hlooks : ¬ LooksQuoted data)
    (hfits : f.length + 1 + (completed data).length ≤ conf.maxSize)
    (hseparator : ['\n'] ∈ lines (completed data).dropLast) :
    enqueued conf (handed conf.maxSize ((f ++ ['\n']) :: quoteLines (lines (completed data))))
      = .queued (completed data).dropLast := by
  have htext : textOf ((f ++ ['\n']) :: quoteLines (lines (completed data)))
      = f ++ '\n' :: completed data := by
    rw [textOf_fromLine, unquote_fromLine hf hstarts, readBack_of_not_looksQuoted hlooks]
  have hhanded : handed conf.maxSize ((f ++ ['\n']) :: quoteLines (lines (completed data)))
      = f ++ '\n' :: (completed data).dropLast := by
    have hfit : (textOf ((f ++ ['\n']) :: quoteLines (lines (completed data)))).length
        ≤ conf.maxSize := by
      rw [htext, List.length_append, List.length_cons]
      omega
    rw [(handed_spec _ _).1 hfit, htext, List.dropLast_append_of_ne_nil (by simp),
      List.dropLast_cons_of_ne_nil (completed_ne_nil data)]
  have htrim : trimmed (f ++ '\n' :: (completed data).dropLast) = (completed data).dropLast := by
    rw [trimmed_fromLine hstarts hf, if_pos hseparator]
  rw [hhanded, enqueued_of_le]
  · rw [htrim]
  · rw [List.length_append, List.length_cons, List.length_dropLast]
    omega
  · rw [htrim]
    intro hnil
    rw [hnil] at hseparator
    cases hseparator

include hf hstarts in
/-- What is handed out ends in the `From ` line, or behind it. -/
theorem trimmed_handed {u w : List Char} (hu : u <+: f ++ '\n' :: w) :
    trimmed u = u ∨ ∃ v, u = f ++ '\n' :: v ∧ v <+: w ∧ trimmed u = v ∧ ['\n'] ∈ lines v := by
  by_cases hlen : u.length ≤ f.length
  · left
    have hfront : u <+: f := List.prefix_of_prefix_length_le hu (List.prefix_append _ _) hlen
    have hno : '\n' ∉ u := fun hmem => hf (hfront.subset hmem)
    apply trimmed_of_not_mem
    by_cases hnil : u = []
    · rw [hnil]
      simp [lines]
    · rw [lines_of_not_mem hno hnil, List.mem_singleton]
      rintro rfl
      exact hno List.mem_cons_self
  · have hline : f ++ ['\n'] <+: u := by
      have hall : f ++ ['\n'] <+: f ++ '\n' :: w := ⟨w, by simp⟩
      refine List.prefix_of_prefix_length_le hall hu ?_
      rw [List.length_append, List.length_singleton]
      omega
    obtain ⟨v, rfl⟩ := hline
    rw [List.append_assoc, List.singleton_append] at hu ⊢
    rw [trimmed_fromLine hstarts hf]
    by_cases hsep : ['\n'] ∈ lines v
    · right
      rw [if_pos hsep]
      have hv : v <+: w := by
        have hcancel := (List.prefix_append_right_inj f).mp hu
        exact (List.cons_prefix_cons.mp hcancel).2
      exact ⟨v, rfl, hv, rfl, hsep⟩
    · left
      rw [if_neg hsep]

include hf hstarts in
/-- It does only then. -/
theorem first_same {conf : Conf} {data g : List Char} (hlong : 6 ≤ f.length)
    (hfrom : ¬ Mail.fromPrefix <+: data)
    (hqueued : enqueued conf
      (handed conf.maxSize ((f ++ ['\n']) :: quoteLines (lines (completed data)))) = .queued g)
    (hsame : SameText g data) :
    ¬ LooksQuoted data ∧ f.length + 1 + (completed data).length ≤ conf.maxSize ∧
      ['\n'] ∈ lines (completed data).dropLast := by
  obtain ⟨hg, hne⟩ := enqueued_queued hqueued
  obtain ⟨hfit, hover⟩ :=
    handed_spec conf.maxSize ((f ++ ['\n']) :: quoteLines (lines (completed data)))
  have hdrop := fromLine_handed hf hstarts conf.maxSize (quoteLines (lines (completed data)))
  rw [textOf_fromLine, unquote_fromLine hf hstarts] at hfit hover
  generalize handed conf.maxSize ((f ++ ['\n']) :: quoteLines (lines (completed data))) = u
    at hg hfit hover hdrop
  have hu : u <+: f ++ '\n' :: readBack data := by
    by_cases hsize : (f ++ '\n' :: readBack data).length ≤ conf.maxSize
    · rw [hfit hsize]
      exact List.dropLast_prefix _
    · exact (hover (by omega)).1
  rcases trimmed_handed hf hstarts hu with htrim | ⟨v, rfl, hv, htrim, hsep⟩
  · -- the `From ` line is still there, but the mail has none
    have hlead : Mail.fromPrefix <+: f.dropLast := by
      refine List.prefix_of_prefix_length_le hstarts (List.dropLast_prefix f) ?_
      rw [List.length_dropLast, Mail.fromPrefix]
      simp
      omega
    rw [hg, htrim] at hsame
    exact absurd (hsame.from (hlead.trans hdrop)) hfrom
  · rw [htrim] at hg
    rw [hg] at hsame hne
    have hpos := List.length_pos_iff.mpr hne
    rw [List.length_append, List.length_cons] at hfit hover
    by_cases hsize : f.length + ((readBack data).length + 1) ≤ conf.maxSize
    · have hall := hfit hsize
      by_cases hlooks : LooksQuoted data
      · have hback := length_readBack hfrom hlooks
        have hlen := congrArg List.length hall
        rw [List.length_dropLast, List.length_append, List.length_append, List.length_cons,
          List.length_cons] at hlen
        exact absurd hsame (not_sameText (by omega))
      · have hback := readBack_of_not_looksQuoted hlooks
        rw [hback] at hall hsize
        have hveq : v = (completed data).dropLast := by
          rw [List.dropLast_append_of_ne_nil (by simp),
            List.dropLast_cons_of_ne_nil (completed_ne_nil data)] at hall
          simpa using hall
        rw [hveq] at hsep
        exact ⟨hlooks, by omega, hsep⟩
    · have hshort := (hover (by omega)).2
      rw [List.length_append, List.length_cons] at hshort
      by_cases hlooks : LooksQuoted data
      · have hback := length_readBack hfrom hlooks
        exact absurd hsame (not_sameText (by omega))
      · rw [readBack_of_not_looksQuoted hlooks] at hshort
        exact absurd hsame (not_sameText (by omega))

end First

end Fdm.Mbox
