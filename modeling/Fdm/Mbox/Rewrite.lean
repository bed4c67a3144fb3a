import Fdm.Mbox.Scan
import Mathlib.Data.List.Perm.Basic

/-!
# Writing an mbox anew

What a fetch makes of the file that `fetch_mbox_save` leaves behind. The main result is
`rewritten_iff`: the new file holds the kept mails only when all mails are kept, or none.
-/

namespace Fdm.Mbox

open Fdm.Fetch Lib.Lines
open Lib.Strchr (takeWhile_ne)

/-- What a fetch of a file hands out; `none` when the file is refused. -/
def refetch (base : List Char) : Option (List (List Char)) :=
  if base = [] then some []
  else if base.length < 5 ∨ ¬ Mail.fromPrefix <+: base then none
  else some ((mails base 0 0).map Prod.snd)

/-- The content of a mail of an mbox. -/
def content (base : List Char) (a : FetchMboxMail) : List Char :=
  (scanMail unlimited base a.off a.fmbox).2.2

/-- What is promised of the file after a fetch: unchanged when nothing was dropped; otherwise
it consists of the kept mails, each with its `From ` line, as the next fetch finds out. -/
def Rewritten (old new : List Char) (kept dropped : List FetchMboxMail) : Prop :=
  (dropped = [] → new = old) ∧
    (dropped ≠ [] →
      refetch new = some (kept.map (content old)) ∧
        ∀ a ∈ kept, Mail.fromPrefix <+: content old a)

/-- The file that is left behind. -/
def saved (old : List Char) (kept dropped : List FetchMboxMail) : List Char :=
  if dropped = [] then old else kept.flatMap (entryBytes old)

/-! ## Texts of lines -/

theorem textOf_append (ls ls' : List (List Char)) : textOf (ls ++ ls') = textOf ls ++ textOf ls' := by
  rw [textOf, List.flatMap_append]
  rfl

theorem length_textOf_pos {ls : List (List Char)} (h : ls ≠ []) : 0 < (textOf ls).length := by
  cases ls with
  | nil => exact absurd rfl h
  | cons l ls =>
    rw [textOf, List.flatMap_cons, List.length_append, List.length_append, List.length_singleton]
    omega

theorem length_textOf_newline (ls : List (List Char)) :
    (textOf (ls ++ [['\n']])).length = (textOf ls).length + 1 := by
  have hline : textOf [['\n']] = ['\n'] := by decide
  rw [textOf_append, hline, List.length_append]
  rfl

/-- The length of the text handed out. -/
theorem Cut.length_text {base : List Char} {off i : ℕ} {ls₁ ls₂ : List (List Char)}
    (hcut : Cut base off i ls₁ ls₂) :
    ((∃ u, ls₁.flatten = u ++ ['\n', '\n']) ∧
        (scanMail unlimited base off i).2.2.length = (textOf ls₁).length - 2) ∨
      (¬ (∃ u, ls₁.flatten = u ++ ['\n', '\n'])) ∧
        (scanMail unlimited base off i).2.2.length = (textOf ls₁).length := by
  by_cases hblank : ∃ u, ls₁.flatten = u ++ ['\n', '\n']
  · obtain ⟨u, hu⟩ := hblank
    refine Or.inl ⟨⟨u, hu⟩, ?_⟩
    rw [(hcut.blank u hu).2, List.length_take]
    omega
  · refine Or.inr ⟨hblank, ?_⟩
    rw [(hcut.plain hblank).2]

/-! ## The first line -/

theorem head_lines {s l : List Char} {ls : List (List Char)} (h : lines s = l :: ls) :
    chomp l = s.takeWhile (· ≠ '\n') := by
  have hruled := ruled_lines s
  have hflat := flatten_lines s
  rw [h] at hruled hflat
  cases hruled with
  | last b hb hne =>
    rw [← hflat, List.flatten_singleton]
    rfl
  | cons b ls hb _ =>
    rw [← hflat, List.flatten_cons, chomp_line hb, List.append_assoc, List.singleton_append,
      takeWhile_ne hb]

/-- A file starts with `From ` when its first line does. -/
theorem fromPrefix_iff {s l : List Char} {ls : List (List Char)} (h : lines s = l :: ls) :
    Mail.fromPrefix <+: s ↔ IsFrom l := by
  rw [IsFrom, head_lines h]
  constructor
  · rintro ⟨t, rfl⟩
    rw [List.takeWhile_append_of_pos (by simp [Mail.fromPrefix])]
    exact List.prefix_append _ _
  · intro hfrom
    exact hfrom.trans (List.takeWhile_prefix _)

/-! ## The lines of the new file -/

theorem lines_entries (base : List Char) (kept : List FetchMboxMail) :
    lines (kept.flatMap (entryBytes base)) = kept.flatMap fun a => lines (entryBytes base a) := by
  induction kept with
  | nil => rfl
  | cons a kept ih =>
    rw [List.flatMap_cons, List.flatMap_cons, ← ih]
    exact lines_append _ _

theorem entryBytes_ne_nil (base : List Char) (a : FetchMboxMail) : entryBytes base a ≠ [] :=
  List.append_ne_nil_of_right_ne_nil _ (by simp)

/-- A mail of an mbox. -/
def IsMail (base : List Char) (i : ℕ) (a : FetchMboxMail) : Prop :=
  a.off < base.length ∧ (scanMail unlimited base a.off i).1 = a

theorem isMail_of_mem {base : List Char} {i : ℕ} {a : FetchMboxMail}
    (h : a ∈ (mails base i 0).map Prod.fst) : IsMail base i a := by
  obtain ⟨x, hx, rfl⟩ := List.mem_map.mp h
  obtain ⟨-, hlt, heq⟩ := mem_mailsFrom (Nat.zero_le _) hx
  exact ⟨hlt, (congrArg Prod.fst heq).symm⟩

theorem IsMail.fmbox {base : List Char} {i : ℕ} {a : FetchMboxMail} (h : IsMail base i a) :
    a.fmbox = i := by
  obtain ⟨ls₁, ls₂, hcut⟩ := exists_cut base a.off i
  rw [← h.2]
  exact hcut.auxFmbox

theorem IsMail.quiet {base : List Char} {i : ℕ} {a : FetchMboxMail} (h : IsMail base i a) :
    Quiet (decide (a.off = 0)) (lines (entryBytes base a)) := by
  have hquiet := quiet_entryBytes base a.off i
  rwa [h.2] at hquiet

/-- Behind the first mail, no line of the new file is a `From ` line. -/
theorem quiet_rest {base : List Char} {i : ℕ} {kept : List FetchMboxMail}
    (hmail : ∀ a ∈ kept, IsMail base i a) (hoff : ∀ a ∈ kept, a.off ≠ 0) :
    ∀ l ∈ kept.flatMap fun a => lines (entryBytes base a), ¬ IsFrom l := by
  intro l hl
  obtain ⟨a, ha, hla⟩ := List.mem_flatMap.mp hl
  have hquiet := (hmail a ha).quiet
  rw [decide_eq_false (hoff a ha)] at hquiet
  exact hquiet.forall l hla

/-- A file in which only the first line may be a `From ` line is one mail. -/
theorem mails_quiet {new : List Char} (hne : new ≠ []) (hquiet : Quiet true (lines new)) :
    (mails new 0 0).map Prod.snd = [(scanMail unlimited new 0 0).2.2] ∧ Cut new 0 0 (lines new) [] := by
  obtain ⟨ls₁, ls₂, hcut⟩ := exists_cut new 0 0
  have hlines := hcut.lines
  rw [List.drop_zero] at hlines
  have hnil : ls₂ = [] := by
    cases ls₂ with
    | nil => rfl
    | cons l ls =>
      obtain ⟨hpos, hfrom⟩ := hcut.ends l ls rfl
      cases ls₁ with
      | nil => exact absurd rfl hpos
      | cons l' ls₁ =>
        rw [hlines] at hquiet
        exact absurd hfrom (hquiet.2 l (by simp))
  subst hnil
  rw [List.append_nil] at hlines
  have hnext : (scanMail unlimited new 0 0).2.1 = new.length := by
    rw [hcut.next, ← hlines, flatten_lines]
    simp
  rw [hlines]
  refine ⟨?_, hcut⟩
  rw [mails_cons (List.length_pos_iff.mpr hne), hnext, mails_end]
  rfl

/-! ## The promise -/

/-- The first mail of an mbox with more than one. -/
theorem first_cut {old : List Char} {i : ℕ} (hlt : 0 < old.length)
    (hmore : (mails old i 0).length ≠ 1) :
    ∃ ls₁ ls₂, Cut old 0 i ls₁ ls₂ ∧ ls₁ ≠ [] ∧ ∀ l ∈ ls₁, Complete l := by
  obtain ⟨ls₁, ls₂, hcut⟩ := exists_cut old 0 i
  have hruled := ruled_lines (old.drop 0)
  have hflat := flatten_lines (old.drop 0)
  rw [hcut.lines] at hruled hflat
  cases ls₂ with
  | nil =>
    have hnext : (scanMail unlimited old 0 i).2.1 = old.length := by
      rw [List.append_nil, List.drop_zero] at hflat
      rw [hcut.next, hflat]
      simp
    refine absurd ?_ hmore
    rw [mails_cons hlt, hnext, mails_end]
    rfl
  | cons l ls =>
    refine ⟨ls₁, l :: ls, hcut, ?_, hruled.complete_of_append⟩
    rintro rfl
    exact (hcut.ends l ls rfl).1 rfl

theorem lines_ne_nil {s : List Char} (h : s ≠ []) : lines s ≠ [] := by
  intro hnil
  have hflat := flatten_lines s
  rw [hnil] at hflat
  exact h hflat.symm

/-- The lines of a text with a blank line at its end. -/
theorem lines_blank (u : List Char) :
    lines (u ++ ['\n', '\n']) = lines (u ++ ['\n']) ++ [['\n']] := by
  have happend := lines_append u ['\n']
  rwa [List.append_assoc] at happend

/-- A blank line that was cut off: its newline is missing in the text, and one is written. -/
theorem length_cut_blank {new : List Char} {L : List (List Char)} (hne : L ≠ [])
    (hnew : Cut new 0 0 L []) (hL : lines L.flatten = L) :
    (scanMail unlimited new 0 0).2.2.length ≠ (textOf (L ++ [['\n']])).length - 2 := by
  have hpos := length_textOf_pos hne
  rw [length_textOf_newline]
  rcases hnew.length_text with ⟨⟨v, hv⟩, htext⟩ | ⟨-, htext⟩
  · -- two lines at least, since the last one is blank
    have hsplit : L = lines (v ++ ['\n']) ++ [['\n']] := by
      rw [← hL, hv, lines_blank]
    have htwo := length_textOf_pos (lines_ne_nil (s := v ++ ['\n']) (by simp))
    rw [htext, hsplit, length_textOf_newline]
    omega
  · omega

/-- A newline that is written at the end takes the one in front of it along. -/
theorem length_cut_plain {new : List Char} {L : List (List Char)} (hne : L ≠ [])
    (hcomplete : ∀ l ∈ L, Complete l) (hnew : Cut new 0 0 (L ++ [['\n']]) []) :
    (scanMail unlimited new 0 0).2.2.length ≠ (textOf L).length := by
  have hpos := length_textOf_pos hne
  have hends : ∃ v, (L ++ [['\n']]).flatten = v ++ ['\n', '\n'] := by
    obtain ⟨ls, l, rfl⟩ := (List.eq_nil_or_concat L).resolve_left hne
    obtain ⟨b, -, rfl⟩ := hcomplete l (by simp)
    exact ⟨ls.flatten ++ b, by simp⟩
  rcases hnew.length_text with ⟨-, htext⟩ | ⟨hno, -⟩
  · rw [length_textOf_newline] at htext
    omega
  · exact absurd hends hno

/-- The first mail of an mbox, saved alone, is not read back as it was. -/
theorem first_alone {old : List Char} {i : ℕ} {a : FetchMboxMail} (hmail : IsMail old i a)
    (hoff : a.off = 0) (hmore : (mails old i 0).length ≠ 1) :
    (scanMail unlimited (entryBytes old a) 0 0).2.2 ≠ content old a := by
  have hlt := hmail.1
  have haux := hmail.2
  have hquiet := hmail.quiet
  rw [decide_eq_true hoff] at hquiet
  rw [hoff] at hlt haux
  obtain ⟨-, hnew⟩ := mails_quiet (entryBytes_ne_nil old a) hquiet
  obtain ⟨ls₁, ls₂, hcut, hne, hcomplete⟩ := first_cut hlt hmore
  intro heq
  have hlen := congrArg List.length heq
  rw [content, hmail.fmbox, hoff] at hlen
  by_cases hblank : ∃ u, ls₁.flatten = u ++ ['\n', '\n']
  · obtain ⟨u, hu⟩ := hblank
    have hbytes : entryBytes old a = u ++ ['\n'] := by
      rw [← haux]
      exact (hcut.blank u hu).1
    have hsplit : ls₁ = lines (entryBytes old a) ++ [['\n']] := by
      rw [← (ruled_of_complete hcomplete).lines_flatten, hu, hbytes, lines_blank]
    have hcontent : (scanMail unlimited old 0 i).2.2.length = (textOf ls₁).length - 2 := by
      rw [(hcut.blank u hu).2, List.length_take]
      omega
    rw [hcontent, hsplit] at hlen
    exact length_cut_blank (lines_ne_nil (entryBytes_ne_nil old a)) hnew
      (by rw [flatten_lines]) hlen
  · have hbytes : entryBytes old a = ls₁.flatten ++ ['\n'] := by
      rw [← haux]
      exact (hcut.plain hblank).1
    have hlines : lines (entryBytes old a) = ls₁ ++ [['\n']] := by
      have hruled : Ruled (ls₁ ++ [['\n']]) :=
        Ruled.complete_append hcomplete (.cons [] [] (by simp) .nil)
      have hflat : (ls₁ ++ [['\n']]).flatten = entryBytes old a := by
        rw [hbytes, List.flatten_append]
        rfl
      rw [← hflat, hruled.lines_flatten]
    have hcontent : (scanMail unlimited old 0 i).2.2.length = (textOf ls₁).length := by
      rw [(hcut.plain hblank).2]
    rw [hcontent] at hlen
    rw [hlines] at hnew
    exact length_cut_plain hne hcomplete hnew hlen

/-- The mails of an mbox have different offsets. -/
theorem mails_nodup (base : List Char) (i : ℕ) :
    (((mails base i 0).map Prod.fst).map FetchMboxMail.off).Nodup := by
  rw [List.map_map]
  exact (mailsFrom_sorted (Nat.zero_le _)).imp Nat.ne_of_lt

/-- What is saved of some of the mails is not what was kept. -/
theorem not_refetch {old : List Char} {i : ℕ} {kept dropped : List FetchMboxMail}
    (hperm : (kept ++ dropped).Perm ((mails old i 0).map Prod.fst)) (hkept : kept ≠ [])
    (hdropped : dropped ≠ []) :
    refetch (kept.flatMap (entryBytes old)) ≠ some (kept.map (content old)) := by
  have hmail : ∀ a ∈ kept, IsMail old i a := fun a ha =>
    isMail_of_mem (hperm.mem_iff.mp (List.mem_append_left _ ha))
  have hnodup : (kept.map FetchMboxMail.off).Nodup := by
    have hall := (hperm.map FetchMboxMail.off).nodup_iff.mpr (mails_nodup old i)
    rw [List.map_append] at hall
    exact (List.nodup_append.mp hall).1
  have hcount : kept.length + dropped.length = (mails old i 0).length := by
    rw [← List.length_append, hperm.length_eq, List.length_map]
  have hdrop : 0 < dropped.length := List.length_pos_iff.mpr hdropped
  obtain ⟨a, rest, rfl⟩ := List.exists_cons_of_ne_nil hkept
  have ha := hmail a List.mem_cons_self
  have hrest : ∀ b ∈ rest, IsMail old i b := fun b hb => hmail b (List.mem_cons_of_mem a hb)
  rw [List.map_cons, List.nodup_cons] at hnodup
  have hlines : lines ((a :: rest).flatMap (entryBytes old))
      = lines (entryBytes old a) ++ rest.flatMap fun b => lines (entryBytes old b) := by
    rw [lines_entries, List.flatMap_cons]
  have hne : (a :: rest).flatMap (entryBytes old) ≠ [] := by
    rw [List.flatMap_cons]
    exact List.append_ne_nil_of_left_ne_nil (entryBytes_ne_nil old a) _
  intro hfetch
  rw [refetch, if_neg hne] at hfetch
  by_cases hfrom : Mail.fromPrefix <+: (a :: rest).flatMap (entryBytes old)
  · obtain ⟨l, ls, hl⟩ := List.exists_cons_of_ne_nil (lines_ne_nil (entryBytes_ne_nil old a))
    have hquiet := ha.quiet
    have hfirst := hlines
    rw [hl] at hfirst hquiet
    -- the new file has to start with the first mail of the old one
    have hoff : a.off = 0 := by
      by_contra hoff
      rw [decide_eq_false hoff] at hquiet
      exact hquiet.1 rfl ((fromPrefix_iff hfirst).mp hfrom)
    have hothers : ∀ b ∈ rest, b.off ≠ 0 := by
      intro b hb hzero
      exact hnodup.1 (List.mem_map.mpr ⟨b, hb, hzero.trans hoff.symm⟩)
    have hone : Quiet true (lines ((a :: rest).flatMap (entryBytes old))) := by
      rw [hlines, ← decide_eq_true hoff]
      exact ha.quiet.append (quiet_rest hrest hothers)
    obtain ⟨hmails, -⟩ := mails_quiet hne hone
    have hlen : ¬ ((a :: rest).flatMap (entryBytes old)).length < 5 := by
      have hle := hfrom.length_le
      exact Nat.not_lt.mpr hle
    rw [if_neg (not_or.mpr ⟨hlen, not_not.mpr hfrom⟩), hmails, Option.some_inj, List.map_cons,
      List.cons.injEq] at hfetch
    have hnil : rest = [] := List.map_eq_nil_iff.mp hfetch.2.symm
    subst hnil
    rw [List.flatMap_cons, List.flatMap_nil, List.append_nil] at hfetch
    rw [List.length_singleton] at hcount
    exact first_alone ha hoff (by omega) hfetch.1
  · rw [if_pos (Or.inr hfrom)] at hfetch
    cases hfetch

/-- The new file holds the kept mails exactly when nothing was dropped, or nothing kept. -/
theorem rewritten_iff {old : List Char} {i : ℕ} {kept dropped : List FetchMboxMail}
    (hperm : (kept ++ dropped).Perm ((mails old i 0).map Prod.fst)) :
    Rewritten old (saved old kept dropped) kept dropped ↔ dropped = [] ∨ kept = [] := by
  by_cases hdropped : dropped = []
  · rw [saved, if_pos hdropped]
    exact ⟨fun _ => Or.inl hdropped, fun _ => ⟨fun _ => rfl, fun hne => absurd hdropped hne⟩⟩
  · rw [saved, if_neg hdropped]
    constructor
    · intro hrewritten
      right
      by_contra hkept
      exact not_refetch hperm hkept hdropped (hrewritten.2 hdropped).1
    · rintro (hnil | hnil)
      · exact absurd hnil hdropped
      · rw [hnil]
        exact ⟨fun h => absurd h hdropped, fun _ => ⟨rfl, nofun⟩⟩

end Fdm.Mbox
