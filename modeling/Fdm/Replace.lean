import Fdm.Mail

/-!
# Templates

`replace` of `replace.c`, which expands the `%` sequences of a template: tags, and the groups
of the last regular expression. Templates and values are C strings, and what `replace` gives is
what it writes before the final NUL.
-/

namespace Fdm.Replace

/-! ## Groups of the last match -/

/-- `NPMATCH`. -/
def npmatch : ℕ := 10

/-- `struct rm`. -/
structure Rm where
  valid : Bool := false
  so : ℕ := 0
  eo : ℕ := 0
deriving DecidableEq, Repr

/-- `struct rmlist`. -/
structure Rmlist where
  valid : Bool := false
  list : List Rm := List.replicate npmatch {}
deriving DecidableEq, Repr

/-- The bytes of `s` from `so` to `eo`. -/
def slice (s : List Char) (so eo : ℕ) : List Char := (s.drop so).take (eo - so)

/-- `(ch) - '0'`. -/
def digitOf (ch : Char) : ℕ := ch.toNat - '0'.toNat

/-- `submatch`: the bytes it points at. -/
def submatch {α : Type} (m : Mail α) (rml : Rmlist) (ch : Char) : Option (List Char) :=
  if rml.valid then
    (rml.list[digitOf ch]?).bind fun rm =>
      if rm.valid then some (slice m.data rm.so rm.eo) else none
  else none

/-! ## Expanding a template -/

/-- `aliases`. -/
def aliasOf : Char → Option String
  | 'a' => some "account"
  | 'd' => some "day"
  | 'h' => some "home"
  | 'm' => some "month"
  | 'n' => some "uid"
  | 's' => some "source"
  | 't' => some "action"
  | 'u' => some "user"
  | 'y' => some "year"
  | 'H' => some "hour"
  | 'M' => some "minute"
  | 'Q' => some "quarter"
  | 'S' => some "second"
  | 'W' => some "dayofweek"
  | 'Y' => some "dayofyear"
  | _ => none

/-- What is written for a value; `strchr` finds the NUL of the strip characters too. -/
def written (stripChars : List Char) (strip : Bool) (value : List Char) : List Char :=
  if strip then value.filter fun c => c ≠ '\x00' ∧ c ∉ stripChars else value

section

variable (stripChars : List Char) (findTag : List Char → Option (List Char))
  (sub : Char → Option (List Char))

/-- What a `%` sequence gives the loop: bytes to write, `strip` from then on, and the template
behind it. `none` is a read behind the end of the template. -/
abbrev Token : Type := Option (List Char × Bool × List Char)

/-- The characters after `%[`. -/
def bracket (strip : Bool) (ptr : List Char) : Token :=
  if ']' ∈ ptr then
    let key := ptr.takeWhile (· ≠ ']')
    let rest := (ptr.dropWhile (· ≠ ']')).drop 1
    let (strip, key) := if key.head? = some ':' then (false, key.drop 1) else (strip, key)
    if key = [] then some ([], strip, rest)
    else
      match findTag key with
      | none => some ([], strip, rest)
      | some value => some (written stripChars strip value, strip, rest)
  else some (['%', '['], strip, ptr)

/-- The characters after `%:`. -/
def colon (strip : Bool) : List Char → Token
  | [] => none
  | ch :: rest =>
    if ch.isDigit then
      match sub ch with
      | none => some ([], strip, rest)
      | some value => some (written stripChars false value, false, rest)
    else some ([ch], strip, rest)

/-- The characters after `%`. -/
def percent (strip : Bool) : List Char → Token
  | [] => some ([], strip, [])
  | '%' :: rest => some (['%'], strip, rest)
  | '[' :: rest => bracket stripChars findTag strip rest
  | ':' :: rest => colon stripChars sub strip rest
  | ch :: rest =>
    let value := if ch.isDigit then sub ch else (aliasOf ch).bind fun key => findTag key.toList
    some (written stripChars strip (value.getD []), strip, rest)

/-- The loop of `replace`; the first argument bounds its passes. -/
def replaceFrom : ℕ → Bool → List Char → Option (List Char)
  | 0, _, _ => some []
  | _ + 1, _, [] => some []
  | fuel + 1, strip, '%' :: ptr =>
    (percent stripChars findTag sub strip ptr).bind fun (out, strip, rest) =>
      (replaceFrom fuel strip rest).map (out ++ ·)
  | fuel + 1, strip, ch :: ptr => (replaceFrom fuel strip ptr).map (ch :: ·)

/-- A template expanded with the groups that `sub` gives. -/
def replaceWith (src : List Char) : Option (List Char) :=
  replaceFrom stripChars findTag sub src.length true src

end

/-- `replace`. -/
def replace {α : Type} (stripChars : List Char) (findTag : List Char → Option (List Char))
    (m : Mail α) (rml : Rmlist) (src : List Char) : Option (List Char) :=
  replaceWith stripChars findTag (submatch m rml) src

/-! ## Which groups a template can see -/

section

variable {stripChars : List Char} {findTag : List Char → Option (List Char)}
  {sub sub' : Char → Option (List Char)}

theorem percent_congr (h : ∀ ch, ch.isDigit → sub ch = sub' ch) (strip : Bool) (ptr : List Char) :
    percent stripChars findTag sub strip ptr = percent stripChars findTag sub' strip ptr := by
  unfold percent
  split
  · rfl
  · rfl
  · rfl
  · -- after `%:`
    rename_i rest
    cases rest with
    | nil => rfl
    | cons ch rest =>
      by_cases hd : ch.isDigit
      · simp [colon, hd, h ch hd]
      · simp [colon, hd]
  · rename_i ch rest _ _ _
    by_cases hd : ch.isDigit
    · simp [hd, h ch hd]
    · simp [hd]

theorem replaceFrom_congr (h : ∀ ch, ch.isDigit → sub ch = sub' ch) (fuel : ℕ) (strip : Bool)
    (src : List Char) :
    replaceFrom stripChars findTag sub fuel strip src =
      replaceFrom stripChars findTag sub' fuel strip src := by
  induction fuel generalizing strip src with
  | zero => rfl
  | succ fuel ih =>
    cases src with
    | nil => rfl
    | cons ch ptr =>
      by_cases hch : ch = '%'
      · subst hch
        simp only [replaceFrom, percent_congr h, ih]
      · simp only [replaceFrom, ih]

/-- Groups are looked up by digits only. -/
theorem replaceWith_congr (h : ∀ ch, ch.isDigit → sub ch = sub' ch) (src : List Char) :
    replaceWith stripChars findTag sub src = replaceWith stripChars findTag sub' src :=
  replaceFrom_congr h _ _ _

/-- `%:N` is the group as it is. -/
theorem replaceWith_verbatim {ch : Char} (hd : ch.isDigit) :
    replaceWith stripChars findTag sub ['%', ':', ch] = some ((sub ch).getD []) := by
  cases h : sub ch <;> simp [replaceWith, replaceFrom, percent, colon, hd, h, written]

variable (stripChars findTag) in
/-- Two lookups whose groups are never empty expand every template alike only when they are
the same. -/
theorem replaceWith_eq_iff (hs : ∀ ch, sub ch ≠ some []) (hs' : ∀ ch, sub' ch ≠ some []) :
    (∀ src, replaceWith stripChars findTag sub src = replaceWith stripChars findTag sub' src) ↔
      ∀ ch, ch.isDigit → sub ch = sub' ch := by
  refine ⟨fun h ch hd => ?_, fun h src => replaceWith_congr h src⟩
  have hv := h ['%', ':', ch]
  rw [replaceWith_verbatim hd, replaceWith_verbatim hd] at hv
  have hs := hs ch
  have hs' := hs' ch
  cases hsub : sub ch <;> cases hsub' : sub' ch <;> simp_all

end

end Fdm.Replace
