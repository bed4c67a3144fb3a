import Fdm.Imap.Defs
import Fdm.Lib.Memory

/-!
# What the IMAP fetcher reads of a line

The memory accesses of the state functions. A received line is a block with its terminator at the
end; what is read behind it, or in front of it, has no result. A string function reads up to the
terminator at most.

* `getlnIn` and `callIn`: the reads of `imap_getln` and of a state function;
* `tagIn_buffer`: `imap_tag` leaves a line without a space unterminated;
* `legible` and `getlnIn_bind`: which lines can be read.
-/

namespace Fdm.Imap

open Fdm.Fetch Lib.Scanf Lib.Memory
open Lib.Strchr (takeWhile_ne takeWhile_ne_self)

/-! ## Functions of the C library -/

/-- A received line in its buffer. -/
def buffer (s : List Char) : List Char := s ++ ['\x00']

/-- `strchr`: the offset of a character, if it is found up to the terminator. -/
def strchrIn (c : Char) : List Char → Option (Option ℕ)
  | [] => none
  | x :: mem =>
    if x = c then some (some 0)
    else if x = '\x00' then some none
    else (strchrIn c mem).map (Option.map (· + 1))

/-- Any function that goes through the whole string, such as `log_warnx` for its `%s`. -/
def readString (mem : List Char) : Option (List Char) := strAt '\x00' mem 0

/-! ## Lines -/

/-- The end of `imap_tag`: the tag is cut off while it is read, then a space is put at its end. -/
def numberIn (mem : List Char) : Option (Tag × List Char) :=
  (strchrIn ' ' mem).bind fun space =>
    (space.elim ((strchrIn '\x00' mem).bind id) some).bind fun ptr =>
      (strAt '\x00' (mem.set ptr '\x00') 0).map fun digits =>
        ((strtonum (2 ^ 31 - 1) digits).elim .error .num, mem.set ptr ' ')

/-- `imap_tag`: the tag, and the line as it is left. -/
def tagIn (mem : List Char) : Option (Tag × List Char) :=
  (mem[0]?).bind fun c =>
    (if c = '*' then mem[1]? else some c).bind fun d =>
      if c = '*' ∧ d = ' ' then some (.none, mem)
      else if c = '+' then some (.continue, mem)
      else numberIn mem

/-- The `switch` of `imap_parse`. -/
def parseTag (type : LineType) (tag : ℕ) (found : Tag) : Parsed :=
  match type, found with
  | .raw, _ => .ok
  | .tagged, .none => .ignore
  | .tagged, .num n => if n = tag then .ok else .invalid
  | .tagged, _ => .invalid
  | .untagged, .none => .ok
  | .untagged, _ => .invalid
  | .continue, .none => .ignore
  | .continue, .continue => .ok
  | .continue, _ => .invalid

/-- `imap_parse`, with the `imap_bad` of an invalid line. -/
def parseIn (type : LineType) (tag : ℕ) (mem : List Char) : Option (Parsed × List Char) :=
  if type = .raw then some (.ok, mem)
  else
    (tagIn mem).bind fun (found, mem) =>
      match parseTag type tag found with
      | .invalid => (readString mem).map fun _ => (.invalid, mem)
      | parsed => some (parsed, mem)

/-- What `imap_getln` gives. -/
inductive Got
  | wait
  | error
  | line (mem : List Char)
deriving DecidableEq, Repr

/-- `imap_getln`, over the lines that have arrived. -/
def getlnIn (type : LineType) (tag : ℕ) : List Received → Option Got
  | [] => some .wait
  | .broken :: _ => some .error
  | .line s _ :: rest =>
    (parseIn type tag (buffer s)).bind fun (parsed, mem) =>
      match parsed with
      | .invalid => some .error
      | .ignore => getlnIn type tag rest
      | .ok => some (.line mem)

/-- `imap_okay`. -/
def okayIn (mem : List Char) : Option Bool :=
  (strchrIn ' ' mem).bind fun
    | none => some false
    | some ptr =>
      (mem[ptr + 1]?).bind fun c =>
        if c ≠ 'O' then some false
        else
          (mem[ptr + 2]?).bind fun c =>
            if c ≠ 'K' then some false
            else (mem[ptr + 3]?).map fun c => c = ' ' || c = '\x00'

/-! ## State functions -/

/-- `imap_getln`, and what the state function does with the line. -/
def withLine (type : LineType) (e : Env) (use : List Char → Option Unit) : Option Unit :=
  (getlnIn type e.data.tag e.inbuf).bind fun
    | .line mem => use mem
    | _ => some ()

/-- A tagged line that has to be `OK`; if not, `imap_bad` logs it. -/
def useOkay (mem : List Char) : Option Unit :=
  (okayIn mem).bind fun ok => if ok then some () else (readString mem).map fun _ => ()

/-- A line that is searched and scanned as a string. -/
def useString (mem : List Char) : Option Unit := (readString mem).map fun _ => ()

/-- The string behind the `+`. -/
def useChallenge (mem : List Char) : Option Unit := (strAt '\x00' mem 1).map fun _ => ()

/-- `IO_ROUND`, in a `size_t`. -/
def ioRound (n : ℕ) : ℕ := (n / 16384 + 1) * 16384 % 2 ^ 64

/-- The size that `imap_state_body` finds in a line. -/
def literalSize (line : List Char) : Option ℕ :=
  match sscanf fetchLine line, strstr bodyLiteral line with
  | [_], some ptr =>
    match sscanf bodySize ptr with
    | [size] => some size
    | _ => none
  | _, _ => none

/-- The line of `imap_state_body`; `shm_create` is fatal for a size of zero. -/
def useLiteral (mem : List Char) : Option Unit :=
  (readString mem).bind fun line =>
    match literalSize line with
    | none => some ()
    | some size => if ioRound size = 0 then none else some ()

/-- The loop of `imap_state_select3`. -/
def select3In (tag : ℕ) : List Received → Option Unit
  | .line s _ :: rest =>
    (parseIn .untagged tag (buffer s)).bind fun (parsed, mem) =>
      match parsed with
      | .ok =>
        (readString mem).bind fun line =>
          match sscanf existsLine line with
          | [_] => some ()
          | _ => select3In tag rest
      | _ => some ()
  | _ => some ()

/-- What `imap_state_line` does with the first line that does not fit: `left` must not wrap, and
`line[size - 1]` has to be in the line. -/
def lastIn (size used : ℕ) (s : List Char) : Option Unit :=
  if size < used ∨ s.length = 0 then none
  else
    ((buffer s)[s.length - 1]?).bind fun c =>
      if c ≠ ')' ∧ s.length ≤ size - used then (readString (buffer s)).map fun _ => ()
      else (read (buffer s) 0 (size - used)).map fun _ => ()

/-- The loop of `imap_state_line` when it is not flushing; `used` is `m->size + data->lines`. -/
def literalIn (size : ℕ) (fault : Bool) : ℕ → List Received → Option Unit
  | used, .line s _ :: rest =>
    if size < used + s.length + 2 then lastIn size used s
    else if fault then some ()
    else literalIn size fault (used + (s.length + 2)) rest
  | _, _ => some ()

/-- The reads of a call of the state function. -/
def callIn (fctx : Ctx) (e : Env) : Option Unit :=
  match fctx.state with
  | .init => some ()
  | .connect => some ()
  | .connected => withLine .untagged e useString
  | .capability1 => withLine .untagged e useString
  | .capability2 => withLine .tagged e useOkay
  | .cramMd5Auth => withLine .continue e useChallenge
  | .login => withLine .continue e fun _ => some ()
  | .user => withLine .continue e fun _ => some ()
  | .pass => withLine .tagged e useOkay
  | .select1 => some ()
  | .select2 => withLine .continue e fun _ => some ()
  | .select3 => select3In e.data.tag e.inbuf
  | .select4 => withLine .tagged e useOkay
  | .search1 => some ()
  | .search2 => withLine .untagged e useString
  | .search3 => withLine .tagged e useOkay
  | .next => some ()
  | .body => withLine .untagged e useLiteral
  | .line =>
    if e.data.flushing then some ()
    else literalIn e.data.size e.fault (fctx.mail.size + e.data.lines) e.inbuf
  | .mail => withLine .tagged e useOkay
  | .commit => withLine .tagged e useOkay
  | .expunge => withLine .tagged e useOkay
  | .close => withLine .tagged e useOkay
  | .quit => withLine .tagged e useOkay

/-! ## Which lines can be read -/

/-- The line has a space, or starts with a plus. -/
def spaced (s : List Char) : Bool := decide (' ' ∈ s) || s.head? = some '+'

/-- The lines that `imap_getln` looks at can be read. -/
def legible (type : LineType) (tag : ℕ) : List Received → Bool
  | .line s _ :: rest => spaced s && (imapParse type tag s ≠ .ignore || legible type tag rest)
  | _ => true

/-- The line that `imap_getln` gives. -/
def firstLine (type : LineType) (tag : ℕ) : List Received → Option (List Char)
  | .line s _ :: rest =>
    match imapParse type tag s with
    | .ok => some s
    | .ignore => firstLine type tag rest
    | .invalid => none
  | _ => none

/-- The lines that `imap_state_select3` looks at can be read. -/
def select3Legible (tag : ℕ) : List Received → Bool
  | .line s _ :: rest =>
    spaced s &&
      (imapParse .untagged tag s ≠ .ok || (sscanf existsLine s).length = 1 ||
        select3Legible tag rest)
  | _ => true

/-- The first line that does not fit into a literal. -/
def firstLong (size : ℕ) (fault : Bool) : ℕ → List Received → Option (List Char)
  | used, .line s _ :: rest =>
    if size < used + s.length + 2 then some s
    else if fault then none
    else firstLong size fault (used + (s.length + 2)) rest
  | _, _ => none

/-! ## Strings -/

theorem strchrIn_append {c : Char} {a : List Char} (hc : c ∉ a) (hnul : '\x00' ∉ a)
    (t : List Char) : strchrIn c (a ++ c :: t) = some (some a.length) := by
  induction a with
  | nil => simp [strchrIn]
  | cons x a ih =>
    rw [List.mem_cons, not_or] at hc hnul
    rw [List.cons_append, strchrIn, if_neg (Ne.symm hc.1), if_neg (Ne.symm hnul.1), ih hc.2 hnul.2]
    rfl

theorem strchrIn_none {c : Char} {s : List Char} (hc : c ∉ s) (hne : c ≠ '\x00')
    (hnul : '\x00' ∉ s) (t : List Char) : strchrIn c (s ++ '\x00' :: t) = some none := by
  induction s with
  | nil => rw [List.nil_append, strchrIn, if_neg (Ne.symm hne), if_pos rfl]
  | cons x s ih =>
    rw [List.mem_cons, not_or] at hc hnul
    rw [List.cons_append, strchrIn, if_neg (Ne.symm hc.1), if_neg (Ne.symm hnul.1), ih hc.2 hnul.2]
    rfl

theorem strAt_append {s : List Char} (hnul : '\x00' ∉ s) (t : List Char) :
    strAt '\x00' (s ++ '\x00' :: t) 0 = some s := by
  rw [strAt, if_pos (by simp), List.drop_zero, takeWhile_ne hnul]

theorem readString_buffer {s : List Char} (hnul : '\x00' ∉ s) : readString (buffer s) = some s :=
  strAt_append hnul []

/-- Without its terminator a string has no end. -/
theorem readString_open {s : List Char} (hnul : '\x00' ∉ s) : readString (s ++ [' ']) = none := by
  rw [readString, strAt, if_neg (by simp [hnul])]

/-! ## Tags -/

theorem numberIn_buffer {s : List Char} (hnul : '\x00' ∉ s) :
    numberIn (buffer s) = some ((strtonum (2 ^ 31 - 1) (s.takeWhile (· ≠ ' '))).elim .error .num,
      s ++ [if ' ' ∈ s then '\x00' else ' ']) := by
  by_cases hspace : ' ' ∈ s
  · obtain ⟨a, b, rfl, ha⟩ := List.eq_append_cons_of_mem hspace
    have hnula : '\x00' ∉ a := fun h => hnul (List.mem_append_left _ h)
    have hbuffer : buffer (a ++ ' ' :: b) = a ++ ' ' :: (b ++ ['\x00']) := by simp [buffer]
    have hset : ∀ c, (a ++ ' ' :: (b ++ ['\x00'])).set a.length c = a ++ c :: (b ++ ['\x00']) := by
      intro c
      rw [List.set_append_right _ _ (Nat.le_refl _), Nat.sub_self]
      rfl
    rw [hbuffer, numberIn, strchrIn_append ha hnula, Option.bind_some, Option.elim_some,
      Option.bind_some, hset, hset, strAt_append hnula, Option.map_some, takeWhile_ne ha]
    simp
  · have hset : ∀ c, (s ++ ['\x00']).set s.length c = s ++ [c] := by
      intro c
      rw [List.set_append_right _ _ (Nat.le_refl _), Nat.sub_self]
      rfl
    rw [buffer, numberIn, strchrIn_none hspace (by decide) hnul, Option.bind_some, Option.elim_none,
      strchrIn_append hnul hnul, Option.bind_some, id, Option.bind_some, hset, hset,
      strAt_append hnul, Option.map_some, takeWhile_ne_self hspace, if_neg hspace]

/-- `imap_tag` on a line: a line without a space loses its terminator. -/
theorem tagIn_buffer {s : List Char} (hnul : '\x00' ∉ s) :
    tagIn (buffer s) = some (imapTag s, s ++ [if spaced s then '\x00' else ' ']) := by
  have hnumber : ¬ ['*', ' '] <+: s → s.head? ≠ some '+' →
      numberIn (buffer s) = some (imapTag s, s ++ [if spaced s then '\x00' else ' ']) := by
    intro hstar hplus
    have htag : imapTag s = (strtonum (2 ^ 31 - 1) (s.takeWhile (· ≠ ' '))).elim .error .num := by
      rw [imapTag, if_neg hstar, if_neg hplus]
      cases strtonum (2 ^ 31 - 1) (s.takeWhile (· ≠ ' ')) <;> rfl
    rw [numberIn_buffer hnul, htag]
    simp [spaced, hplus]
  cases s with
  | nil => exact hnumber (by decide) (by decide)
  | cons c s =>
    have hfirst : (buffer (c :: s))[0]? = some c := rfl
    rw [tagIn, hfirst, Option.bind_some]
    by_cases hc : c = '*'
    · subst hc
      cases s with
      | nil => exact hnumber (by decide) (by decide)
      | cons d s =>
        have hsecond : (buffer ('*' :: d :: s))[1]? = some d := rfl
        rw [if_pos rfl, hsecond, Option.bind_some]
        by_cases hd : d = ' '
        · subst hd
          simp [imapTag, buffer, spaced]
        · rw [if_neg fun h => hd h.2, if_neg (by decide)]
          exact hnumber (by simpa using Ne.symm hd) (by simp)
    · rw [if_neg hc, Option.bind_some, if_neg fun h => hc h.1]
      by_cases hplus : c = '+'
      · subst hplus
        simp [imapTag, buffer, spaced]
      · rw [if_neg hplus]
        exact hnumber (by simpa using fun h => absurd h.symm hc) (by simpa using hplus)

theorem imapParse_eq {type : LineType} (htype : type ≠ .raw) (tag : ℕ) (s : List Char) :
    imapParse type tag s = parseTag type tag (imapTag s) := by
  cases type with
  | raw => exact absurd rfl htype
  | tagged => cases h : imapTag s <;> simp [imapParse, parseTag, h]
  | «continue» => cases h : imapTag s <;> simp [imapParse, parseTag, h]
  | untagged => cases h : imapTag s <;> simp [imapParse, parseTag, h]

/-- Only a number is a tag without a space or a plus. -/
theorem imapParse_of_not_spaced {type : LineType} {tag : ℕ} {s : List Char}
    (hs : spaced s = false) (htype : type ≠ .raw) :
    imapParse type tag s = .invalid ∨ imapParse type tag s = .ok ∧ type = .tagged := by
  rw [spaced, Bool.or_eq_false_iff, decide_eq_false_iff_not, decide_eq_false_iff_not] at hs
  have hstar : ¬ ['*', ' '] <+: s := by
    rintro ⟨t, rfl⟩
    exact hs.1 (by simp)
  have htag : imapTag s ≠ .none ∧ imapTag s ≠ .continue := by
    rw [imapTag, if_neg hstar, if_neg hs.2]
    cases strtonum (2 ^ 31 - 1) (s.takeWhile (· ≠ ' ')) <;> exact ⟨nofun, nofun⟩
  rw [imapParse_eq htype]
  cases type with
  | raw => exact absurd rfl htype
  | untagged => cases h : imapTag s <;> simp_all [parseTag]
  | «continue» => cases h : imapTag s <;> simp_all [parseTag]
  | tagged =>
    cases h : imapTag s with
    | none => exact absurd h htag.1
    | «continue» => exact absurd h htag.2
    | error => exact Or.inl rfl
    | num n =>
      rw [parseTag]
      split_ifs
      · exact Or.inr ⟨rfl, rfl⟩
      · exact Or.inl rfl

/-! ## Lines -/

/-- `imap_parse` on a line that can be read. -/
theorem parseIn_spaced {type : LineType} {tag : ℕ} {s : List Char} (htype : type ≠ .raw)
    (hnul : '\x00' ∉ s) (hs : spaced s = true) :
    parseIn type tag (buffer s) = some (imapParse type tag s, buffer s) := by
  rw [parseIn, if_neg htype, tagIn_buffer hnul, if_pos hs, Option.bind_some, imapParse_eq htype]
  have hread : readString (s ++ ['\x00']) = some s := readString_buffer hnul
  cases h : parseTag type tag (imapTag s) <;> simp [h, hread, buffer]

/-- `imap_parse` on a line without a space: `imap_bad` runs over its end, or the line is handed
out without one. -/
theorem parseIn_not_spaced {type : LineType} {tag : ℕ} {s : List Char} (htype : type ≠ .raw)
    (hnul : '\x00' ∉ s) (hs : spaced s = false) :
    parseIn type tag (buffer s) =
      if imapParse type tag s = .ok then some (.ok, s ++ [' ']) else none := by
  have hfalse : ¬ spaced s = true := by simp [hs]
  rw [parseIn, if_neg htype, tagIn_buffer hnul, if_neg hfalse, Option.bind_some]
  have hread := readString_open hnul
  rcases imapParse_of_not_spaced hs htype with hinvalid | ⟨hok, -⟩
  · rw [hinvalid, if_neg (by decide)]
    rw [imapParse_eq htype] at hinvalid
    simp [hinvalid, hread]
  · rw [hok, if_pos rfl]
    rw [imapParse_eq htype] at hok
    simp [hok]

/-- The lines that have arrived have no NUL in them. -/
def CleanLines (ls : List Received) : Prop := ∀ s stale, .line s stale ∈ ls → '\x00' ∉ s

theorem CleanLines.tail {r : Received} {ls : List Received} (h : CleanLines (r :: ls)) :
    CleanLines ls := fun s stale hmem => h s stale (List.mem_cons_of_mem r hmem)

/-- A line is read, and used, within its bounds just when the lines up to it are legible. -/
theorem getlnIn_bind {type : LineType} {tag : ℕ} {use : List Char → Option Unit}
    (htype : type ≠ .raw)
    (huse : type = .tagged → ∀ s, '\x00' ∉ s → spaced s = false → use (s ++ [' ']) = none)
    {ls : List Received} (hclean : CleanLines ls) :
    ((getlnIn type tag ls).bind fun got =>
      match got with
      | .line mem => use mem
      | _ => some ()).isSome = true ↔
      legible type tag ls = true ∧
        ∀ s, firstLine type tag ls = some s → (use (buffer s)).isSome = true := by
  induction ls with
  | nil => simp [getlnIn, legible, firstLine]
  | cons r ls ih =>
    cases r with
    | broken => simp [getlnIn, legible, firstLine]
    | line s stale =>
      have hnul : '\x00' ∉ s := hclean s stale List.mem_cons_self
      rw [getlnIn, legible, firstLine]
      cases hs : spaced s with
      | true =>
        rw [parseIn_spaced htype hnul hs, Option.bind_some]
        cases hparse : imapParse type tag s with
        | invalid => simp
        | ok => simp
        | ignore => simpa using ih hclean.tail
      | false =>
        rw [parseIn_not_spaced htype hnul hs]
        rcases imapParse_of_not_spaced hs htype with hinvalid | ⟨hok, htagged⟩
        · rw [hinvalid, if_neg (by decide)]
          simp
        · rw [hok, if_pos rfl, Option.bind_some]
          simp [huse htagged s hnul hs]

end Fdm.Imap
