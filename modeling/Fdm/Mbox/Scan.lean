import Fdm.Mbox.Defs
import Fdm.Lib.Strchr

/-!
# The mails of an mbox

What the scanner of `fetch_mbox_state_mail` finds in the bytes of an mbox, from one mail to
the next:

* `scanLines_spec`: a mail is the lines up to the next `From ` line;
* `quiet_entryBytes`: what is written for a kept mail has no new `From ` line;
* `mails_cons`: all mails, one after the other.
-/

namespace Fdm.Mbox

open Fdm.Fetch Lib.Lines
open Lib.Strchr (takeWhile_ne takeWhile_ne_self)

/-- No size is too big. -/
def unlimited (_ : ℕ) : Bool := false

/-- A `From ` line. -/
def IsFrom (l : List Char) : Prop := Mail.fromPrefix <+: chomp l

instance (l : List Char) : Decidable (IsFrom l) :=
  inferInstanceAs (Decidable (Mail.fromPrefix <+: chomp l))

/-- Lines that start no new mail, but for the first line of an mbox. -/
def Quiet (first : Bool) : List (List Char) → Prop
  | [] => True
  | l :: ls => (first = false → ¬ IsFrom l) ∧ ∀ x ∈ ls, ¬ IsFrom x

/-- The text that lines are turned into. -/
def textOf (ls : List (List Char)) : List Char :=
  ls.flatMap fun l => unquote (chomp l) ++ ['\n']

theorem quiet_of_forall {first : Bool} {ls : List (List Char)} (h : ∀ l ∈ ls, ¬ IsFrom l) :
    Quiet first ls := by
  cases ls with
  | nil => trivial
  | cons l ls => exact ⟨fun _ => h l List.mem_cons_self, fun x hx => h x (List.mem_cons_of_mem l hx)⟩

theorem Quiet.forall {ls : List (List Char)} (h : Quiet false ls) : ∀ l ∈ ls, ¬ IsFrom l := by
  cases ls with
  | nil => simp
  | cons l ls =>
    intro x hx
    rcases List.mem_cons.mp hx with hx | hx
    · rw [hx]
      exact h.1 rfl
    · exact h.2 x hx

theorem Quiet.append {first : Bool} {ls ls' : List (List Char)} (h : Quiet first ls)
    (h' : ∀ l ∈ ls', ¬ IsFrom l) : Quiet first (ls ++ ls') := by
  cases ls with
  | nil => exact quiet_of_forall h'
  | cons l ls =>
    refine ⟨h.1, fun x hx => ?_⟩
    rcases List.mem_append.mp hx with hx | hx
    · exact h.2 x hx
    · exact h' x hx

/-! ## One mail -/

/-- The lines of a mail, `ls₁`, and what stops the scanner: the end of the file, or the next
`From ` line. -/
structure MailLines (off : ℕ) (ls₁ ls₂ : List (List Char)) (r : Scan) : Prop where
  quiet : Quiet (decide (off = 0)) ls₁
  stop : r.stop = off + ls₁.flatten.length
  text : r.text = textOf ls₁
  next : r.off = r.stop + (ls₂.headD []).length
  ends : ∀ l ls, ls₂ = l :: ls → r.stop ≠ 0 ∧ IsFrom l

theorem scanLines_spec (ls : List (List Char)) (hne : ∀ l ∈ ls, l ≠ []) (off : ℕ)
    (text : List Char) :
    ∃ ls₁ ls₂ r, ls = ls₁ ++ ls₂ ∧ MailLines off ls₁ ls₂ r ∧
      scanLines unlimited off ls text = { r with text := text ++ r.text } := by
  induction ls generalizing off text with
  | nil => exact ⟨[], [], ⟨off, off, []⟩, rfl, ⟨trivial, rfl, rfl, rfl, nofun⟩, by simp [scanLines]⟩
  | cons l ls ih =>
    by_cases hfrom : off ≠ 0 ∧ Mail.fromPrefix <+: chomp l
    · refine ⟨[], l :: ls, ⟨off, off + l.length, []⟩, rfl, ⟨trivial, rfl, rfl, rfl, ?_⟩, ?_⟩
      · intro x xs hx
        obtain ⟨rfl, -⟩ := List.cons.inj hx
        exact hfrom
      · rw [scanLines, if_pos hfrom, List.append_nil]
    · obtain ⟨ls₁, ls₂, r, rfl, hr, heq⟩ := ih (fun x hx => hne x (List.mem_cons_of_mem l hx))
        (off + l.length) (text ++ unquote (chomp l) ++ ['\n'])
      have hpos : 0 < l.length := List.length_pos_iff.mpr (hne l List.mem_cons_self)
      have hquiet := hr.quiet
      rw [decide_eq_false (by omega)] at hquiet
      refine ⟨l :: ls₁, ls₂, { r with text := unquote (chomp l) ++ ['\n'] ++ r.text }, rfl,
        ⟨⟨?_, hquiet.forall⟩, ?_, ?_, hr.next, hr.ends⟩, ?_⟩
      · intro hoff hl
        exact hfrom ⟨of_decide_eq_false hoff, hl⟩
      · show r.stop = _
        rw [hr.stop, List.flatten_cons, List.length_append]
        omega
      · show unquote (chomp l) ++ ['\n'] ++ r.text = _
        rw [hr.text, textOf, textOf, List.flatMap_cons]
      · rw [scanLines, if_neg hfrom, if_neg (by simp [unlimited]), heq]
        simp

/-- What is appended does not decide where a mail ends. -/
theorem scanLines_big (big : ℕ → Bool) (off : ℕ) (ls : List (List Char)) (text text' : List Char) :
    (scanLines big off ls text).stop = (scanLines unlimited off ls text').stop ∧
      (scanLines big off ls text).off = (scanLines unlimited off ls text').off := by
  induction ls generalizing off text text' with
  | nil => exact ⟨rfl, rfl⟩
  | cons l ls ih =>
    by_cases hfrom : off ≠ 0 ∧ Mail.fromPrefix <+: chomp l
    · rw [scanLines, if_pos hfrom, scanLines, if_pos hfrom]
      exact ⟨rfl, rfl⟩
    · rw [scanLines, if_neg hfrom, scanLines, if_neg hfrom]
      have hsmall : ¬ unlimited text'.length = true := Bool.false_ne_true
      rw [if_neg hsmall]
      by_cases hbig : big text.length
      · rw [if_pos hbig]
        exact ih _ _ _
      · rw [if_neg hbig]
        exact ih _ _ _

/-- The entry of a mail and the place of the next one do not depend on the maximum size. -/
theorem scanMail_big (big : ℕ → Bool) (base : List Char) (off i : ℕ) :
    (scanMail big base off i).1 = (scanMail unlimited base off i).1 ∧
      (scanMail big base off i).2.1 = (scanMail unlimited base off i).2.1 := by
  obtain ⟨hstop, hoff⟩ := scanLines_big big off (lines (base.drop off)) [] []
  unfold scanMail
  dsimp only
  rw [hstop]
  split_ifs
  · exact ⟨rfl, hoff⟩
  · exact ⟨rfl, hoff⟩

/-- A line is never empty. -/
theorem ne_nil_of_mem_lines {s l : List Char} (h : l ∈ lines s) : l ≠ [] := by
  have hall : ∀ ls, Ruled ls → ∀ l ∈ ls, l ≠ [] := by
    intro ls hls
    induction hls with
    | nil => simp
    | last b _ hne => simpa using hne
    | cons b ls _ _ ih =>
      intro l hl
      rcases List.mem_cons.mp hl with hl | hl
      · rw [hl]
        simp
      · exact ih l hl
  exact hall _ (ruled_lines s) l h

/-- The lines of the mail at `off`, in the bytes of the mbox. -/
theorem mail_lines (base : List Char) (off : ℕ) :
    ∃ ls₁ ls₂, lines (base.drop off) = ls₁ ++ ls₂ ∧
      MailLines off ls₁ ls₂ (scanLines unlimited off (lines (base.drop off)) []) := by
  obtain ⟨ls₁, ls₂, r, hls, hr, heq⟩ :=
    scanLines_spec (lines (base.drop off)) (fun l hl => ne_nil_of_mem_lines hl) off []
  refine ⟨ls₁, ls₂, hls, ?_⟩
  rw [heq]
  exact ⟨hr.quiet, hr.stop, hr.text, hr.next, hr.ends⟩

/-- A text that ends with two newlines. -/
theorem endsBlank_iff {base s t : List Char} {off : ℕ} (hbase : base.drop off = s ++ t) :
    endsBlank base off s.length = true ↔ ∃ u, s = u ++ ['\n', '\n'] := by
  have hget : ∀ k, k < s.length → base[off + k]? = s[k]? := by
    intro k hk
    rw [← List.getElem?_drop, hbase, List.getElem?_append_left hk]
  constructor
  · intro h
    simp only [endsBlank, Bool.and_eq_true, decide_eq_true_eq] at h
    obtain ⟨⟨hlen, hlast⟩, hprev⟩ := h
    rw [Nat.add_sub_assoc (by omega), hget _ (by omega)] at hlast hprev
    refine ⟨s.take (s.length - 2), ?_⟩
    apply List.ext_getElem?
    intro k
    have htake : (s.take (s.length - 2)).length = s.length - 2 := by
      rw [List.length_take]
      omega
    rcases Nat.lt_or_ge k (s.length - 2) with hlt | hge
    · rw [List.getElem?_append_left (by omega), List.getElem?_take_of_lt hlt]
    · rw [List.getElem?_append_right (by omega), htake]
      obtain hk | hk | hk : k = s.length - 2 ∨ k = s.length - 1 ∨ s.length ≤ k := by omega
      · rw [hk, hprev, Nat.sub_self]
        rfl
      · rw [hk, hlast, show s.length - 1 - (s.length - 2) = 1 by omega]
        rfl
      · rw [List.getElem?_eq_none hk, List.getElem?_eq_none]
        simp
        omega
  · rintro ⟨u, rfl⟩
    have hlen : (u ++ ['\n', '\n']).length = u.length + 2 := by simp
    simp only [endsBlank, Bool.and_eq_true, decide_eq_true_eq]
    refine ⟨⟨by omega, ?_⟩, ?_⟩
    · rw [Nat.add_sub_assoc (by omega), hget _ (by omega), hlen]
      simp
    · rw [Nat.add_sub_assoc (by omega), hget _ (by omega), hlen]
      simp

/-- The mail at `off`: its lines, the entry it gets, the text handed out, and where the next
mail is looked for. A blank line at the end is cut off, with the newline in front of it. -/
structure Cut (base : List Char) (off i : ℕ) (ls₁ ls₂ : List (List Char)) : Prop where
  lines : lines (base.drop off) = ls₁ ++ ls₂
  quiet : Quiet (decide (off = 0)) ls₁
  ends : ∀ l ls, ls₂ = l :: ls → off + ls₁.flatten.length ≠ 0 ∧ IsFrom l
  auxOff : (scanMail unlimited base off i).1.off = off
  auxFmbox : (scanMail unlimited base off i).1.fmbox = i
  next : (scanMail unlimited base off i).2.1
    = off + ls₁.flatten.length + (ls₂.headD []).length
  blank : ∀ u, ls₁.flatten = u ++ ['\n', '\n'] →
    entryBytes base (scanMail unlimited base off i).1 = u ++ ['\n'] ∧
      (scanMail unlimited base off i).2.2 = (textOf ls₁).take ((textOf ls₁).length - 2)
  plain : (¬ ∃ u, ls₁.flatten = u ++ ['\n', '\n']) →
    entryBytes base (scanMail unlimited base off i).1 = ls₁.flatten ++ ['\n'] ∧
      (scanMail unlimited base off i).2.2 = textOf ls₁

theorem exists_cut (base : List Char) (off i : ℕ) : ∃ ls₁ ls₂, Cut base off i ls₁ ls₂ := by
  obtain ⟨ls₁, ls₂, hls, hr⟩ := mail_lines base off
  have hbase : base.drop off = ls₁.flatten ++ ls₂.flatten := by
    rw [← List.flatten_append, ← hls, flatten_lines]
  have hsize : (scanLines unlimited off (Lib.Lines.lines (base.drop off)) []).stop - off
      = ls₁.flatten.length := by
    rw [hr.stop]
    omega
  have hscan : scanMail unlimited base off i =
      if endsBlank base off ls₁.flatten.length then
        (⟨off, ls₁.flatten.length - 2, i⟩, off + ls₁.flatten.length + (ls₂.headD []).length,
          (textOf ls₁).take ((textOf ls₁).length - 2))
      else
        (⟨off, ls₁.flatten.length, i⟩, off + ls₁.flatten.length + (ls₂.headD []).length,
          textOf ls₁) := by
    unfold scanMail
    dsimp only
    rw [hsize, hr.text, hr.next, hr.stop]
  refine ⟨ls₁, ls₂, hls, hr.quiet, ?_, ?_, ?_, ?_, ?_, ?_⟩
  · intro l ls hl
    rw [← hr.stop]
    exact hr.ends l ls hl
  · rw [hscan]
    split_ifs <;> rfl
  · rw [hscan]
    split_ifs <;> rfl
  · rw [hscan]
    split_ifs <;> rfl
  · intro u hu
    rw [hscan, if_pos ((endsBlank_iff hbase).mpr ⟨u, hu⟩)]
    refine ⟨?_, rfl⟩
    have hlen : ls₁.flatten.length - 2 = u.length := by
      rw [hu, List.length_append]
      rfl
    show (base.drop off).take (ls₁.flatten.length - 2) ++ ['\n'] = u ++ ['\n']
    rw [hbase, hlen, hu, List.append_assoc, List.take_left]
  · intro hu
    rw [hscan, if_neg fun h => hu ((endsBlank_iff hbase).mp h)]
    refine ⟨?_, rfl⟩
    show (base.drop off).take ls₁.flatten.length ++ ['\n'] = ls₁.flatten ++ ['\n']
    rw [hbase, List.take_left]

theorem chomp_line {b : List Char} (hb : '\n' ∉ b) : chomp (b ++ ['\n']) = b :=
  takeWhile_ne hb []

/-- A `From ` line does not depend on its newline. -/
theorem chomp_append_newline {b : List Char} (hb : '\n' ∉ b) : chomp (b ++ ['\n']) = chomp b :=
  (chomp_line hb).trans (takeWhile_ne_self hb).symm

theorem not_isFrom_newline : ¬ IsFrom ['\n'] := by decide

/-- What is written for a kept mail has no `From ` line in it that its mail has not. -/
theorem quiet_entryBytes (base : List Char) (off i : ℕ) :
    Quiet (decide (off = 0)) (lines (entryBytes base (scanMail unlimited base off i).1)) := by
  obtain ⟨ls₁, ls₂, hcut⟩ := exists_cut base off i
  have hquiet := hcut.quiet
  have hruled : Ruled ls₁ := by
    have hall : Ruled (ls₁ ++ ls₂) := by
      rw [← hcut.lines]
      exact ruled_lines _
    cases ls₂ with
    | nil => rwa [List.append_nil] at hall
    | cons l ls₂ => exact ruled_of_complete hall.complete_of_append
  by_cases hblank : ∃ u, ls₁.flatten = u ++ ['\n', '\n']
  · obtain ⟨u, hu⟩ := hblank
    rw [(hcut.blank u hu).1]
    -- the lines written are those of the mail without the blank one
    have hls : ls₁ = lines (u ++ ['\n']) ++ [['\n']] := by
      rw [← hruled.lines_flatten, hu]
      have happend := lines_append u ['\n']
      rw [List.append_assoc] at happend
      exact happend
    rw [hls] at hquiet
    cases hw : lines (u ++ ['\n']) with
    | nil => trivial
    | cons l ls =>
      rw [hw] at hquiet
      exact ⟨hquiet.1, fun x hx => hquiet.2 x (List.mem_append_left _ hx)⟩
  · rw [(hcut.plain hblank).1]
    rcases lines_newline hruled with hls | ⟨ls', b, hb, rfl, hls⟩
    · rw [hls]
      refine hquiet.append fun l hl => ?_
      rw [List.mem_singleton.mp hl]
      exact not_isFrom_newline
    · rw [hls]
      -- the last line is completed
      have hfrom : IsFrom (b ++ ['\n']) ↔ IsFrom b := by
        rw [IsFrom, IsFrom, chomp_append_newline hb]
      cases ls' with
      | nil => exact ⟨fun h => by rw [hfrom]; exact hquiet.1 h, by simp⟩
      | cons l ls' =>
        refine ⟨hquiet.1, fun x hx => ?_⟩
        rcases List.mem_append.mp hx with hx | hx
        · exact hquiet.2 x (List.mem_append_left _ hx)
        · rw [List.mem_singleton.mp hx, hfrom]
          exact hquiet.2 b (List.mem_append_right _ (List.mem_singleton_self b))

/-! ## All mails -/

/-- The mails from `off` on, each with the text handed out for it; the first argument bounds
their number. -/
def mailsFrom (base : List Char) (i : ℕ) : ℕ → ℕ → List (FetchMboxMail × List Char)
  | 0, _ => []
  | fuel + 1, off =>
    if off = base.length then []
    else
      let (aux, next, text) := scanMail unlimited base off i
      (aux, text) :: mailsFrom base i fuel next

/-- The mails of an mbox from `off` on. -/
def mails (base : List Char) (i off : ℕ) : List (FetchMboxMail × List Char) :=
  mailsFrom base i (base.length + 1) off

theorem next_bounds {base : List Char} {off : ℕ} (hoff : off < base.length) (i : ℕ) :
    off < (scanMail unlimited base off i).2.1 ∧
      (scanMail unlimited base off i).2.1 ≤ base.length := by
  obtain ⟨ls₁, ls₂, hcut⟩ := exists_cut base off i
  have hflat : ls₁.flatten.length + ls₂.flatten.length = base.length - off := by
    rw [← List.length_append, ← List.flatten_append, ← hcut.lines, flatten_lines,
      List.length_drop]
  rw [hcut.next]
  cases ls₂ with
  | nil =>
    simp only [List.flatten_nil, List.length_nil, List.headD_nil] at hflat ⊢
    omega
  | cons l ls =>
    have hl : l ≠ [] := ne_nil_of_mem_lines (s := base.drop off) (by rw [hcut.lines]; simp)
    have hpos : 0 < l.length := List.length_pos_iff.mpr hl
    simp only [List.flatten_cons, List.length_append, List.headD_cons] at hflat ⊢
    omega

/-- Enough is enough. -/
theorem mailsFrom_fuel {base : List Char} {i fuel fuel' off : ℕ} (hoff : off ≤ base.length)
    (hfuel : base.length - off < fuel) (hfuel' : base.length - off < fuel') :
    mailsFrom base i fuel off = mailsFrom base i fuel' off := by
  induction fuel generalizing fuel' off with
  | zero => omega
  | succ fuel ih =>
    obtain ⟨fuel', rfl⟩ : ∃ k, fuel' = k + 1 := ⟨fuel' - 1, by omega⟩
    rw [mailsFrom, mailsFrom]
    by_cases hend : off = base.length
    · rw [if_pos hend, if_pos hend]
    · rw [if_neg hend, if_neg hend]
      obtain ⟨hlt, hle⟩ := next_bounds (Nat.lt_of_le_of_ne hoff hend) i
      have hrest : mailsFrom base i fuel (scanMail unlimited base off i).2.1
          = mailsFrom base i fuel' (scanMail unlimited base off i).2.1 :=
        ih hle (by omega) (by omega)
      dsimp only
      rw [hrest]

theorem mails_end {base : List Char} {i : ℕ} : mails base i base.length = [] := by
  rw [mails, mailsFrom, if_pos rfl]

theorem mails_cons {base : List Char} {i off : ℕ} (hoff : off < base.length) :
    mails base i off =
      ((scanMail unlimited base off i).1, (scanMail unlimited base off i).2.2) ::
        mails base i (scanMail unlimited base off i).2.1 := by
  obtain ⟨hlt, hle⟩ := next_bounds hoff i
  have hrest : mailsFrom base i base.length (scanMail unlimited base off i).2.1
      = mailsFrom base i (base.length + 1) (scanMail unlimited base off i).2.1 :=
    mailsFrom_fuel hle (by omega) (by omega)
  rw [mails, mailsFrom, if_neg (Nat.ne_of_lt hoff), mails]
  dsimp only
  rw [hrest]

/-- A mail is the one the scanner finds at its offset. -/
theorem mem_mailsFrom {base : List Char} {i fuel off : ℕ} (hoff : off ≤ base.length)
    {x : FetchMboxMail × List Char} (hx : x ∈ mailsFrom base i fuel off) :
    off ≤ x.1.off ∧ x.1.off < base.length ∧
      x = ((scanMail unlimited base x.1.off i).1, (scanMail unlimited base x.1.off i).2.2) := by
  induction fuel generalizing off with
  | zero => cases hx
  | succ fuel ih =>
    rw [mailsFrom] at hx
    by_cases hend : off = base.length
    · rw [if_pos hend] at hx
      cases hx
    · rw [if_neg hend] at hx
      have hlt : off < base.length := Nat.lt_of_le_of_ne hoff hend
      obtain ⟨hnext, hle⟩ := next_bounds hlt i
      rcases List.mem_cons.mp hx with hx | hx
      · obtain ⟨ls₁, ls₂, hcut⟩ := exists_cut base off i
        have hoffx : x.1.off = off := by
          rw [hx]
          exact hcut.auxOff
        rw [hoffx]
        exact ⟨Nat.le_refl off, hlt, hx⟩
      · obtain ⟨hfrom, hlen, heq⟩ := ih hle hx
        exact ⟨by omega, hlen, heq⟩

/-- The offsets of the mails increase. -/
theorem mailsFrom_sorted {base : List Char} {i fuel off : ℕ} (hoff : off ≤ base.length) :
    ((mailsFrom base i fuel off).map fun x => x.1.off).Pairwise (· < ·) := by
  induction fuel generalizing off with
  | zero => exact .nil
  | succ fuel ih =>
    rw [mailsFrom]
    by_cases hend : off = base.length
    · rw [if_pos hend]
      exact .nil
    · rw [if_neg hend]
      have hlt : off < base.length := Nat.lt_of_le_of_ne hoff hend
      obtain ⟨hnext, hle⟩ := next_bounds hlt i
      obtain ⟨ls₁, ls₂, hcut⟩ := exists_cut base off i
      dsimp only
      rw [List.map_cons, List.pairwise_cons]
      refine ⟨fun k hk => ?_, ih hle⟩
      obtain ⟨x, hx, rfl⟩ := List.mem_map.mp hk
      have hfrom := (mem_mailsFrom hle hx).1
      show (scanMail unlimited base off i).1.off < x.1.off
      rw [hcut.auxOff]
      omega

end Fdm.Mbox
