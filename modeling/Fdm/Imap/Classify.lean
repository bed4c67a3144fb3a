import Fdm.Imap.Reads

/-!
# Which lines `imap_parse` accepts

The kinds of line that a server sends, told by the text alone, and `imap_parse` on a line in its
buffer. `imap_tag` cuts the line off behind its first word and puts a space there afterwards; where
there was no space, that was the terminator.

* `imapParse_eq_expected`: the verdict is right but for other spellings of the tag;
* `classifies_iff`: when the verdict is right and the line is as before.
-/

namespace Fdm.Imap

open Lib.Scanf Lib.Memory

/-! ## Kinds of line -/

/-- The first word of a line. -/
def firstWord (s : List Char) : List Char := s.takeWhile (· ≠ ' ')

/-- An untagged reply. -/
def isUntagged (s : List Char) : Prop := ['*', ' '] <+: s

/-- A continuation request. -/
def isContinuation (s : List Char) : Prop := s.head? = some '+'

/-- The reply to the command with this tag. -/
def isTagged (tag : ℕ) (s : List Char) : Prop := firstWord s = decimal tag

instance (s : List Char) : Decidable (isUntagged s) :=
  inferInstanceAs (Decidable (['*', ' '] <+: s))

instance (s : List Char) : Decidable (isContinuation s) :=
  inferInstanceAs (Decidable (s.head? = some '+'))

instance (tag : ℕ) (s : List Char) : Decidable (isTagged tag s) :=
  inferInstanceAs (Decidable (firstWord s = decimal tag))

/-- What should be made of a line: untagged ones may stand in front of the other replies. -/
def expected (type : LineType) (tag : ℕ) (s : List Char) : Parsed :=
  match type with
  | .raw => .ok
  | .tagged => if isTagged tag s then .ok else if isUntagged s then .ignore else .invalid
  | .untagged => if isUntagged s then .ok else .invalid
  | .continue => if isContinuation s then .ok else if isUntagged s then .ignore else .invalid

/-- `imap_parse` gives the right verdict, and the line and its terminator are as before. -/
def Classifies (type : LineType) (tag : ℕ) (s : List Char) : Prop :=
  parseIn type tag (buffer s) = some (expected type tag s, buffer s)

/-- The first word is another spelling of the tag. -/
def Misspelt (tag : ℕ) (s : List Char) : Prop :=
  ¬ isContinuation s ∧ Spells tag (firstWord s) ∧ firstWord s ≠ decimal tag

/-! ## The verdict -/

/-- A printed tag starts with a digit. -/
theorem isTagged.head {tag : ℕ} {s : List Char} (h : isTagged tag s) :
    ∃ c t, s = c :: t ∧ c.isDigit = true := by
  obtain ⟨d, ds, hds⟩ := List.exists_cons_of_ne_nil (decimal_ne_nil tag)
  have hd : d.isDigit = true := isDigit_of_mem_decimal (by rw [hds]; exact List.mem_cons_self)
  cases s with
  | nil =>
    rw [isTagged, hds] at h
    exact absurd h nofun
  | cons c t =>
    refine ⟨c, t, rfl, ?_⟩
    have hc : c ≠ ' ' := by
      rintro rfl
      rw [isTagged, firstWord, List.takeWhile_cons_of_neg (by decide), hds] at h
      exact absurd h nofun
    rw [isTagged, firstWord, List.takeWhile_cons_of_pos (by simpa using hc), hds] at h
    rw [(List.cons.inj h).1]
    exact hd

theorem isTagged.not_untagged {tag : ℕ} {s : List Char} (h : isTagged tag s) :
    ¬ isUntagged s := by
  rintro ⟨t, rfl⟩
  obtain ⟨c, u, heq, hc⟩ := h.head
  cases heq
  exact absurd hc (by decide)

theorem isTagged.not_continuation {tag : ℕ} {s : List Char} (h : isTagged tag s) :
    ¬ isContinuation s := by
  obtain ⟨c, t, rfl, hc⟩ := h.head
  intro hplus
  cases Option.some.inj hplus
  exact absurd hc (by decide)

/-- An asterisk is no number. -/
theorem isUntagged.not_spells {tag : ℕ} {s : List Char} (h : isUntagged s) :
    ¬ Spells tag (firstWord s) := by
  obtain ⟨t, rfl⟩ := h
  have hword : firstWord (['*', ' '] ++ t) = ['*'] := rfl
  rintro ⟨-, hdigits, -⟩
  rw [hword] at hdigits
  exact absurd (hdigits '*' List.mem_cons_self) (by decide)

theorem isUntagged.not_continuation {s : List Char} (h : isUntagged s) : ¬ isContinuation s := by
  obtain ⟨t, rfl⟩ := h
  exact fun hplus => absurd (Option.some.inj hplus) (by decide)

/-- `imap_tag` says `IMAP_TAG_NONE` for untagged lines and no others. -/
theorem imapTag_eq_none {s : List Char} : imapTag s = .none ↔ isUntagged s := by
  rw [imapTag, isUntagged]
  split_ifs with hstar hplus
  · simp [hstar]
  · simp [hstar]
  · cases strtonum (2 ^ 31 - 1) (s.takeWhile (· ≠ ' ')) <;> simp [hstar]

theorem imapTag_eq_continue {s : List Char} : imapTag s = .continue ↔ isContinuation s := by
  rw [imapTag]
  split_ifs with hstar hplus
  · simp [isUntagged.not_continuation hstar]
  · simp [isContinuation, hplus]
  · cases strtonum (2 ^ 31 - 1) (s.takeWhile (· ≠ ' ')) <;> simp [isContinuation, hplus]

/-- `imap_tag` finds a number where one is spelled. -/
theorem imapTag_eq_num {s : List Char} {n : ℕ} (hn : n < 2 ^ 31) :
    imapTag s = .num n ↔ ¬ isContinuation s ∧ Spells n (firstWord s) := by
  have hle : n ≤ 2 ^ 31 - 1 := by omega
  rw [imapTag]
  split_ifs with hstar hplus
  · simp [isUntagged.not_spells hstar]
  · simp [isContinuation, hplus]
  · have hspells : strtonum (2 ^ 31 - 1) (s.takeWhile (· ≠ ' ')) = some n ↔
        Spells n (firstWord s) := by
      rw [strtonum_eq_some, firstWord]
      exact and_iff_left hle
    rw [← hspells]
    cases strtonum (2 ^ 31 - 1) (s.takeWhile (· ≠ ' ')) <;> simp [isContinuation, hplus]

/-- The tag of a command spells it. -/
theorem isTagged.spells {tag : ℕ} (htag : tag < 2 ^ 31) {s : List Char} (h : isTagged tag s) :
    Spells tag (firstWord s) := by
  have hle : tag ≤ 2 ^ 31 - 1 := by omega
  have hread := strtonum_decimal hle
  rw [← h] at hread
  exact (strtonum_eq_some.mp hread).1

/-- The verdict of `imap_parse` is right, except that other spellings of the tag are accepted. -/
theorem imapParse_eq_expected {type : LineType} {tag : ℕ} {s : List Char} (htag : tag < 2 ^ 31) :
    imapParse type tag s = expected type tag s ↔ ¬ (type = .tagged ∧ Misspelt tag s) := by
  have hnone := @imapTag_eq_none s
  have hcontinue := @imapTag_eq_continue s
  cases type with
  | raw => simp [imapParse, expected]
  | untagged =>
    rw [imapParse, expected]
    by_cases hs : isUntagged s
    · rw [hnone.mpr hs]
      simp [hs]
    · have hother : imapTag s ≠ .none := fun h => hs (hnone.mp h)
      cases h : imapTag s <;> simp_all
  | «continue» =>
    rw [imapParse, expected]
    by_cases hs : isUntagged s
    · rw [hnone.mpr hs]
      simp [hs, hs.not_continuation]
    · have hother : imapTag s ≠ .none := fun h => hs (hnone.mp h)
      cases h : imapTag s <;> simp_all
  | tagged =>
    have hnum := @imapTag_eq_num s tag htag
    rw [imapParse, expected]
    by_cases hs : isUntagged s
    · have hword : ¬ isTagged tag s := fun h => h.not_untagged hs
      rw [hnone.mpr hs]
      simp [hs, hword, Misspelt, hs.not_spells]
    · by_cases hspells : ¬ isContinuation s ∧ Spells tag (firstWord s)
      · rw [hnum.mpr hspells]
        by_cases hword : isTagged tag s
        · have heq : firstWord s = decimal tag := hword
          simp [hword, Misspelt, heq]
        · have hne : firstWord s ≠ decimal tag := hword
          simp [hs, hword, Misspelt, hspells, hne]
      · have hword : ¬ isTagged tag s := fun h =>
          hspells ⟨h.not_continuation, h.spells htag⟩
        have hright : ¬ Misspelt tag s := fun h => hspells ⟨h.1, h.2.1⟩
        have hother : imapTag s ≠ .none := fun h => hs (hnone.mp h)
        have hothernum : imapTag s ≠ .num tag := fun h => hspells (hnum.mp h)
        cases h : imapTag s with
        | none => exact absurd h hother
        | num n =>
          have hn : n ≠ tag := by
            rintro rfl
            exact hothernum h
          simp [hs, hword, hright, hn]
        | «continue» => simp [hs, hword, hright]
        | error => simp [hs, hword, hright]

/-! ## The line -/

/-- A line without a space is not as before: its terminator is gone. -/
theorem not_classifies_of_not_spaced {type : LineType} {tag : ℕ} {s : List Char}
    (htype : type ≠ .raw) (hnul : '\x00' ∉ s) (hs : spaced s = false) :
    ¬ Classifies type tag s := by
  rw [Classifies, parseIn_not_spaced htype hnul hs]
  split_ifs with hok
  · intro h
    have hmem : s ++ [' '] = buffer s := (Prod.mk.inj (Option.some.inj h)).2
    exact absurd (List.append_cancel_left hmem) (by decide)
  · exact nofun

/-- `imap_parse` accepts the lines it should and leaves the line as it was, except for lines with
neither a space nor a plus and for other spellings of the tag. -/
theorem classifies_iff {type : LineType} {tag : ℕ} {s : List Char} (hnul : '\x00' ∉ s)
    (htag : tag < 2 ^ 31) :
    Classifies type tag s ↔
      type = .raw ∨
        (' ' ∈ s ∨ isContinuation s) ∧ ¬ (type = .tagged ∧ Misspelt tag s) := by
  by_cases htype : type = .raw
  · subst htype
    simp [Classifies, parseIn, expected]
  · have hspaced : spaced s = true ↔ ' ' ∈ s ∨ isContinuation s := by
      simp [spaced, isContinuation]
    cases hs : spaced s with
    | false =>
      have hspace : ¬ (' ' ∈ s ∨ isContinuation s) := by
        rw [← hspaced, hs]
        exact Bool.false_ne_true
      simp [not_classifies_of_not_spaced htype hnul hs, htype, hspace]
    | true =>
      have hverdict : Classifies type tag s ↔ imapParse type tag s = expected type tag s := by
        rw [Classifies, parseIn_spaced htype hnul hs]
        simp
      rw [hverdict, imapParse_eq_expected htag]
      simp [htype, hspaced.mp hs]

/-- The greeting of a server that does not wait for the fetcher. -/
theorem classifies_iff_greeting :
    Classifies .untagged 0 ['*', ' ', 'O', 'K'] ↔
      LineType.untagged = .raw ∨
        (' ' ∈ ['*', ' ', 'O', 'K'] ∨ isContinuation ['*', ' ', 'O', 'K']) ∧
          ¬ (LineType.untagged = .tagged ∧ Misspelt 0 ['*', ' ', 'O', 'K']) :=
  classifies_iff (by decide) (by decide)

/-- A reply with nothing behind its tag is accepted, with a space in place of its terminator. -/
theorem terminator_lost :
    parseIn .tagged 1 (buffer ['1']) = some (.ok, ['1', ' ']) ∧ ¬ Classifies .tagged 1 ['1'] := by
  have hrun : parseIn .tagged 1 (buffer ['1']) = some (.ok, ['1', ' ']) := by decide
  refine ⟨hrun, ?_⟩
  rw [Classifies, hrun]
  decide

end Fdm.Imap
