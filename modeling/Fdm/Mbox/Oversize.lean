import Fdm.Mbox.Passes

/-!
# Mails that are too large

`fetch_mbox_state_mail` appends no more lines once the mail is larger than the maximum, and
leaves it to `fetch_enqueue` to see that it is. Behind the last line it takes two off the
size for a blank line, also when the two newlines were not among what it appended. The size
is then no longer above the maximum when it was by two at most, and a mail that lost its
end is queued as any other.

* `keepLines_front`: what is kept is the text of the lines up to the first that is too much;
* `exists_mailLines`: the lines of a mail, in the bytes of the mbox;
* `whole_iff`: a mail is handed out whole, or too large, but for those lengths.
-/

namespace Fdm.Mbox

open Fdm.Fetch Lib.Lines

/-! ## The lines of a mail -/

/-- The lines of the mail at `off`: those up to the next `From ` line, which may be the first
line of the mbox only. -/
def mailLines (base : List Char) (off : ℕ) : List (List Char) :=
  match lines (base.drop off) with
  | [] => []
  | l :: ls => if off ≠ 0 ∧ IsFrom l then [] else l :: ls.takeWhile fun x => ¬ IsFrom x

/-- There is a blank line between these lines and the next mail. -/
def Separated (ls : List (List Char)) : Prop := ['\n', '\n'] <:+ ls.flatten

instance (ls : List (List Char)) : Decidable (Separated ls) :=
  inferInstanceAs (Decidable (['\n', '\n'] <:+ ls.flatten))

/-- The lines of a mail without the blank line behind them. -/
def ownLines (ls : List (List Char)) : List (List Char) :=
  if Separated ls then ls.dropLast else ls

/-- The text contains all lines, unquoted; the last one may be without its newline. -/
def Holds (text : List Char) (ls : List (List Char)) : Prop :=
  text = textOf ls ∨ text ++ ['\n'] = textOf ls

instance (text : List Char) (ls : List (List Char)) : Decidable (Holds text ls) :=
  inferInstanceAs (Decidable (_ ∨ _))

/-- The mail is whole, or it is one that `fetch_enqueue` takes for too large. -/
def Whole (conf : Conf) (ls : List (List Char)) (m : Mail FetchMboxMail) : Prop :=
  Holds m.data (ownLines ls) ∨ conf.maxSize < m.size

instance (conf : Conf) (ls : List (List Char)) (m : Mail FetchMboxMail) :
    Decidable (Whole conf ls m) :=
  inferInstanceAs (Decidable (_ ∨ _))

/-- The first lines are larger than the maximum, by two at most, and there are more. -/
def Narrow (max : ℕ) (ls : List (List Char)) : Prop :=
  ∃ pre, pre <+: ls ∧ pre ≠ ls ∧ max < (textOf pre).length ∧ (textOf pre).length ≤ max + 2

theorem length_textOf_mono {ls ls' : List (List Char)} (h : ls <+: ls') :
    (textOf ls).length ≤ (textOf ls').length := by
  obtain ⟨t, rfl⟩ := h
  rw [textOf_append, List.length_append]
  omega

theorem exists_mailLines (base : List Char) (off : ℕ) :
    ∃ tail, lines (base.drop off) = mailLines base off ++ tail ∧
      Quiet (decide (off = 0)) (mailLines base off) ∧
      ∀ l rest, tail = l :: rest → IsFrom l ∧ off + (mailLines base off).flatten.length ≠ 0 := by
  unfold mailLines
  cases hls : lines (base.drop off) with
  | nil => exact ⟨[], rfl, trivial, nofun⟩
  | cons l ls =>
    dsimp only
    by_cases hfrom : off ≠ 0 ∧ IsFrom l
    · rw [if_pos hfrom]
      refine ⟨l :: ls, rfl, trivial, fun x rest hx => ?_⟩
      obtain ⟨rfl, -⟩ := List.cons.inj hx
      exact ⟨hfrom.2, by omega⟩
    · rw [if_neg hfrom]
      refine ⟨ls.dropWhile fun x => ¬ IsFrom x, ?_, ⟨?_, ?_⟩, fun x rest hx => ⟨?_, ?_⟩⟩
      · rw [List.cons_append, List.takeWhile_append_dropWhile]
      · intro hoff hl
        exact hfrom ⟨of_decide_eq_false hoff, hl⟩
      · intro x hx
        simpa using List.mem_takeWhile_imp hx
      · -- the lines behind are those from the first `From ` line on
        have hhead := List.head?_dropWhile_not (fun x => decide (¬ IsFrom x)) ls
        rw [hx] at hhead
        simpa using hhead
      · have hne : l ≠ [] := ne_nil_of_mem_lines (s := base.drop off) (by rw [hls]; simp)
        have hpos : 0 < l.length := List.length_pos_iff.mpr hne
        rw [List.flatten_cons, List.length_append]
        omega

theorem ruled_mailLines (base : List Char) (off : ℕ) : Ruled (mailLines base off) := by
  obtain ⟨tail, hls, -⟩ := exists_mailLines base off
  have hall : Ruled (mailLines base off ++ tail) := by
    rw [← hls]
    exact ruled_lines _
  cases tail with
  | nil => rwa [List.append_nil] at hall
  | cons l tail => exact ruled_of_complete hall.complete_of_append

/-- The line that separates two mails is the last one, and blank. -/
theorem Separated.eq {ls : List (List Char)} (hls : Ruled ls) (h : Separated ls) :
    ls = ownLines ls ++ [['\n']] := by
  obtain ⟨u, hu⟩ := h
  have heq : ls = lines (u ++ ['\n']) ++ [['\n']] := by
    have happend := lines_append u ['\n']
    rw [List.append_assoc] at happend
    rw [← hls.lines_flatten, ← hu]
    exact happend
  rw [ownLines, if_pos ⟨u, hu⟩, heq, List.dropLast_concat]

/-! ## The lines that are kept -/

/-- The text that is kept is that of the first lines, up to the one that makes it too large. -/
theorem keepLines_front (max : ℕ) (ls : List (List Char)) (text : List Char) :
    ∃ pre, pre <+: ls ∧ keepLines max ls text = text ++ textOf pre ∧
      (pre = ls ∨ max < (text ++ textOf pre).length) ∧
      ∀ p, p <+: pre → p ≠ pre → (text ++ textOf p).length ≤ max := by
  induction ls generalizing text with
  | nil =>
    refine ⟨[], List.prefix_refl _, by simp [keepLines, textOf], Or.inl rfl, fun p hp hne => ?_⟩
    exact absurd (List.prefix_nil.mp hp) hne
  | cons l ls ih =>
    by_cases hover : max < text.length
    · refine ⟨[], List.nil_prefix, ?_, Or.inr ?_, fun p hp hne => ?_⟩
      · rw [keepLines_over hover]
        simp [textOf]
      · simpa [textOf] using hover
      · exact absurd (List.prefix_nil.mp hp) hne
    · obtain ⟨pre, hpre, hkeep, hend, hleast⟩ := ih (text ++ unquote (chomp l) ++ ['\n'])
      have hcons : ∀ p, text ++ textOf (l :: p)
          = text ++ unquote (chomp l) ++ ['\n'] ++ textOf p := fun p => by simp [textOf]
      refine ⟨l :: pre, List.cons_prefix_cons.mpr ⟨rfl, hpre⟩, ?_, ?_, fun p hp hne => ?_⟩
      · rw [keepLines, if_neg hover, hkeep, hcons]
      · rw [hcons]
        exact hend.imp (congrArg (l :: ·)) id
      · cases p with
        | nil => simpa [textOf] using Nat.not_lt.mp hover
        | cons x p =>
          obtain ⟨rfl, hrest⟩ := List.cons_prefix_cons.mp hp
          rw [hcons]
          exact hleast p hrest fun h => hne (congrArg (x :: ·) h)

/-- With a blank line behind, the text is cut behind what was appended. -/
theorem holds_take_iff {max : ℕ} (hmax : 0 < max) {own : List (List Char)} (hne : own ≠ []) :
    (Holds ((keepLines max (own ++ [['\n']]) []).take
          ((keepLines max (own ++ [['\n']]) []).length - 2)) own ∨
        max < (keepLines max (own ++ [['\n']]) []).length - 2) ↔
      ¬ Narrow max (own ++ [['\n']]) := by
  obtain ⟨pre, hpre, hkeep, hend, hleast⟩ := keepLines_front max (own ++ [['\n']]) []
  rw [List.nil_append] at hkeep
  simp only [List.nil_append] at hend hleast
  rw [hkeep]
  have htext : textOf (own ++ [['\n']]) = textOf own ++ ['\n'] := by
    rw [textOf_append]
    rfl
  constructor
  · rintro hwhole ⟨p, hp, hpne, hover, hnarrow⟩
    -- the line that was too much is among these
    have hfront : pre <+: p := by
      rcases List.prefix_or_prefix_of_prefix hpre hp with h | h
      · exact h
      · by_cases heq : p = pre
        · exact heq ▸ List.prefix_refl p
        · have hsmall := hleast p h heq
          omega
    have hpreNe : pre ≠ own ++ [['\n']] := by
      rintro rfl
      exact hpne (hp.eq_of_length_le hfront.length_le)
    have hlarge : max < (textOf pre).length := hend.resolve_left hpreNe
    have hlen := length_textOf_mono hfront
    have hown : pre <+: own := (List.prefix_concat_iff.mp hpre).resolve_left hpreNe
    have hall := length_textOf_mono hown
    have htake : ((textOf pre).take ((textOf pre).length - 2)).length = (textOf pre).length - 2 := by
      rw [List.length_take]
      omega
    rcases hwhole with (h | h) | h
    · have hl := congrArg List.length h
      omega
    · have hl := congrArg List.length h
      rw [List.length_append, htake, List.length_singleton] at hl
      omega
    · omega
  · intro hno
    by_cases heq : pre = own ++ [['\n']]
    · left
      right
      -- all lines were appended, and what is cut off are the two newlines
      rw [heq, htext]
      obtain ⟨t, ht⟩ : ∃ t, textOf own = t ++ ['\n'] := by
        obtain ⟨ls, l, rfl⟩ := (List.eq_nil_or_concat own).resolve_left hne
        refine ⟨textOf ls ++ unquote (chomp l), ?_⟩
        rw [List.concat_eq_append, textOf_append, List.append_assoc]
        simp [textOf]
      have hcut : (t ++ ['\n'] ++ ['\n']).take ((t ++ ['\n'] ++ ['\n']).length - 2) = t := by
        rw [List.append_assoc, List.length_append]
        exact List.take_left
      rw [ht, hcut]
    · right
      have hlarge := hend.resolve_left heq
      by_contra hle
      exact hno ⟨pre, hpre, heq, hlarge, by omega⟩

/-! ## The mails that are handed out -/

theorem Separated.ne_nil {ls : List (List Char)} (hls : Ruled ls) (h : Separated ls) :
    ownLines ls ≠ [] := by
  intro hnil
  have heq := h.eq hls
  have hlen := h.length_le
  rw [heq, hnil] at hlen
  simp at hlen

/-- A mail that is handed out holds all of its lines, or is one that `fetch_enqueue` takes for
too large, except where it is separated by a blank line from the next one, there are lines
behind those that were appended, and these are larger than the maximum by two at most. -/
theorem whole_iff {conf : Conf} (hmax : 0 < conf.maxSize) {fctx fctx' : Ctx} {e e' : Env}
    {fmbox : FetchMboxMbox} (hfmbox : e.data.fmboxes[e.data.index]? = some fmbox)
    (h : stateMail conf fctx e = (.mail, fctx', e')) :
    Whole conf (mailLines fmbox.base e.data.off) fctx'.mail ↔
      ¬ (Separated (mailLines fmbox.base e.data.off) ∧
        Narrow conf.maxSize (mailLines fmbox.base e.data.off)) := by
  obtain ⟨tail, hlines, hquiet, hstop⟩ := exists_mailLines fmbox.base e.data.off
  have hruled := ruled_mailLines fmbox.base e.data.off
  obtain ⟨-, -, hblank, hplain⟩ :=
    scanMail_quiet conf.maxSize hlines hquiet hstop e.data.index
  have hdata : fctx'.mail.data
      = (scanMail (bigger conf.maxSize) fmbox.base e.data.off e.data.index).2.2 := by
    rw [stateMail, hfmbox] at h
    dsimp only at h
    split_ifs at h
    · cases h
    · cases h
    · rw [← (Prod.mk.inj (Prod.mk.inj h).2).1]
      rfl
  generalize mailLines fmbox.base e.data.off = ls at hblank hplain hruled
  have hsize : fctx'.mail.size = fctx'.mail.data.length := rfl
  rw [Whole, hsize, hdata]
  by_cases hsep : Separated ls
  · obtain ⟨u, hu⟩ := hsep
    have hsep : Separated ls := ⟨u, hu⟩
    have hiff := holds_take_iff hmax (hsep.ne_nil hruled)
    rw [← hsep.eq hruled] at hiff
    have hlen : ((keepLines conf.maxSize ls []).take
        ((keepLines conf.maxSize ls []).length - 2)).length
          = (keepLines conf.maxSize ls []).length - 2 := by
      rw [List.length_take]
      omega
    rw [hblank ⟨u, hu.symm⟩, hlen, hiff]
    exact ⟨fun hno hboth => hno hboth.2, fun hno hnarrow => hno ⟨hsep, hnarrow⟩⟩
  · have hno : ¬ (Separated ls ∧ Narrow conf.maxSize ls) := fun hboth => hsep hboth.1
    have hnot : ¬ ∃ u, ls.flatten = u ++ ['\n', '\n'] := by
      rintro ⟨u, hu⟩
      exact hsep ⟨u, hu.symm⟩
    rw [hplain hnot, ownLines, if_neg hsep]
    refine ⟨fun _ => hno, fun _ => ?_⟩
    obtain ⟨-, -, hfit, hover⟩ := keepLines_spec conf.maxSize ls []
    rw [List.nil_append] at hfit hover
    rcases Nat.lt_or_ge conf.maxSize (textOf ls).length with hlarge | hsmall
    · exact Or.inr (hover hlarge)
    · exact Or.inl (Or.inl (hfit hsmall))

/-- An mbox of two mails, with a blank line between them. -/
def separatedMails : List Char := "From a\nSubject: b\n\nlast line\n\nFrom c\n\n".toList

/-- The fetcher in front of the first mail of an mbox. -/
def opened (base : List Char) : Env where
  data := { paths := [], fmboxes := [{ path := "mbox".toList, base := base }] }
  files := fun _ => none

theorem whole_iff_separatedMails :
    0 < 18 ∧ (Whole { maxSize := 18 } (mailLines separatedMails 0)
        (stateMail { maxSize := 18 } { state := .mail } (opened separatedMails)).2.1.mail ↔
      ¬ (Separated (mailLines separatedMails 0) ∧ Narrow 18 (mailLines separatedMails 0))) := by
  have hmbox : (opened separatedMails).data.fmboxes[(opened separatedMails).data.index]?
      = some { path := "mbox".toList, base := separatedMails } := rfl
  have hcode : (stateMail { maxSize := 18 } { state := .mail } (opened separatedMails)).1 = .mail := by
    decide +kernel
  refine ⟨by decide, ?_⟩
  have hmax : 0 < ({ maxSize := 18 } : Conf).maxSize := by decide
  exact whole_iff hmax hmbox (Prod.ext hcode (Prod.ext rfl rfl))

/-- The last line is lost, and `fetch_enqueue` queues the mail. -/
theorem tail_lost :
    let r := stateMail { maxSize := 18 } { state := .mail } (opened separatedMails)
    r.1 = .mail ∧ ¬ Whole { maxSize := 18 } (mailLines separatedMails 0) r.2.1.mail ∧
      enqueued { maxSize := 18 } r.2.1.mail.data = .queued "From a\nSubject: b".toList := by
  decide +kernel

end Fdm.Mbox
