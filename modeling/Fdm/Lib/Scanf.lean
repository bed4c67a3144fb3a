import Fdm.Lib.Strchr
import Mathlib.Algebra.Group.Int.Defs
import Mathlib.Algebra.Group.Nat.Defs
import Mathlib.Data.List.TakeDrop
import Mathlib.Data.Nat.Basic

/-!
# Reading numbers out of C strings

The part of `scanf` and `printf` that programs with line-based protocols and files use,
over a string given as the list of its characters: white space, literals, unsigned
decimal conversions (`%u`, `%zu`, `%*u`) and skipped words (`%*s`); and `strtonum` and `strstr`.

* `scan` interprets a format, `sscanf` keeps the values it assigned;
* `scanNum_decimal` says that `%zu` reads back what `%zu` has written.
-/

namespace Lib.Scanf

/-- `isspace` in the C locale. -/
def isSpace (c : Char) : Bool :=
  c = ' ' || c = '\t' || c = '\n' || c = '\x0b' || c = '\x0c' || c = '\x0d'

/-- One directive of a format string. -/
inductive Dir
  | lit (c : Char)
  | space
  | num (bits : ℕ) (store : Bool)
  | word
deriving DecidableEq, Repr

/-- A run of literal characters. -/
def lits (s : List Char) : List Dir := s.map .lit

/-- `%u`. -/
def u32 : Dir := .num 32 true

/-- `%zu`. -/
def usize : Dir := .num 64 true

/-- What `strtoul` makes of a sign and a digit string, cut to the size of the target. -/
def convert (bits : ℕ) (neg : Bool) (v : ℕ) : ℕ :=
  (if 2 ^ 64 ≤ v then 2 ^ 64 - 1 else if neg then (2 ^ 64 - v) % 2 ^ 64 else v) % 2 ^ bits

/-- The sign in front of a number, and what follows it. -/
def takeSign : List Char → Bool × List Char
  | '-' :: s => (true, s)
  | '+' :: s => (false, s)
  | s => (false, s)

/-- An unsigned conversion: white space, a sign, digits. -/
def scanNum (bits : ℕ) (s : List Char) : Option (ℕ × List Char) :=
  let (neg, s) := takeSign (s.dropWhile isSpace)
  let ds := s.takeWhile Char.isDigit
  if ds.isEmpty then none
  else some (convert bits neg (Nat.ofDigitChars 10 ds 0), s.dropWhile Char.isDigit)

/-- Interpret a format: the values assigned before the first directive that fails, and
the text left there. -/
def scan : List Dir → List Char → List ℕ × List Char
  | [], s => ([], s)
  | .lit c :: fmt, s =>
    match s with
    | x :: t => if x = c then scan fmt t else ([], s)
    | [] => ([], [])
  | .space :: fmt, s => scan fmt (s.dropWhile isSpace)
  | .num bits store :: fmt, s =>
    match scanNum bits s with
    | none => ([], s)
    | some (v, t) =>
      let (vs, u) := scan fmt t
      (if store then v :: vs else vs, u)
  | .word :: fmt, s =>
    let t := s.dropWhile isSpace
    if t.isEmpty then ([], t) else scan fmt (t.dropWhile fun c => !isSpace c)

/-- The values `sscanf` assigns; it returns how many there are. -/
def sscanf (fmt : List Dir) (s : List Char) : List ℕ := (scan fmt s).1

/-- `strtonum` with lower bound zero: the whole string is a number up to `hi`. -/
def strtonum (hi : ℕ) (s : List Char) : Option ℕ :=
  let (neg, ds) := takeSign (s.dropWhile isSpace)
  if ds.isEmpty || !ds.all Char.isDigit then none
  else
    let v := Nat.ofDigitChars 10 ds 0
    if hi < v || (neg && v ≠ 0) then none else some v

/-- The ways to spell a number that `strtonum` reads: blanks, a sign and digits. -/
def Spells (n : ℕ) (s : List Char) : Prop :=
  (takeSign (s.dropWhile isSpace)).2 ≠ [] ∧
    (∀ c ∈ (takeSign (s.dropWhile isSpace)).2, c.isDigit = true) ∧
    Nat.ofDigitChars 10 (takeSign (s.dropWhile isSpace)).2 0 = n ∧
    ((takeSign (s.dropWhile isSpace)).1 = true → n = 0)

/-- `strtonum` with any bounds. -/
def strtonumBetween (lo hi : ℤ) (s : List Char) : Option ℤ :=
  let (neg, ds) := takeSign (s.dropWhile isSpace)
  if ds.isEmpty || !ds.all Char.isDigit then none
  else
    let v : ℤ := Nat.ofDigitChars 10 ds 0
    let n := if neg then -v else v
    if n < lo ∨ hi < n then none else some n

/-- `strstr`: the text from the first occurrence of a pattern on. -/
def strstr (pat : List Char) : List Char → Option (List Char)
  | [] => if pat = [] then some [] else none
  | c :: s => if pat <+: c :: s then some (c :: s) else strstr pat s

/-- `fread` of one item of `n` bytes: it fails when `n` is zero or fewer are left. -/
def takeBytes (n : ℕ) (s : List Char) : Option (List Char × List Char) :=
  if n = 0 ∨ s.length < n then none else some (s.take n, s.drop n)

/-! ## Printing and reading back -/

/-- `%zu` and `%u` as `printf` directives. -/
def decimal (n : ℕ) : List Char := Nat.toDigits 10 n

theorem isDigit_of_mem_decimal {n : ℕ} {c : Char} (h : c ∈ decimal n) : c.isDigit :=
  Nat.isDigit_of_mem_toDigits (b := 10) (by decide) (by decide) h

theorem not_mem_decimal {c : Char} (hc : c.isDigit = false) (n : ℕ) : c ∉ decimal n := by
  intro h
  rw [isDigit_of_mem_decimal h] at hc
  cases hc

theorem decimal_ne_nil (n : ℕ) : decimal n ≠ [] := Nat.toDigits_ne_nil

/-- A digit is neither white space nor a sign. -/
theorem not_isSpace_of_isDigit {c : Char} (h : c.isDigit) : isSpace c = false := by
  simp only [isSpace, Bool.or_eq_false_iff, decide_eq_false_iff_not]
  refine ⟨⟨⟨⟨⟨?_, ?_⟩, ?_⟩, ?_⟩, ?_⟩, ?_⟩ <;> rintro rfl <;> exact absurd h (by decide)

theorem takeSign_of_isDigit {c : Char} {s : List Char} (h : c.isDigit) :
    takeSign (c :: s) = (false, c :: s) := by
  unfold takeSign
  split
  · next heq => cases heq; exact absurd h (by decide)
  · next heq => cases heq; exact absurd h (by decide)
  · rfl

/-- What `strtonum` makes of a sign and digits: their number, where the bounds allow it. -/
theorem strtonumBetween_sign {lo hi : ℤ} {neg : Bool} {ds : List Char} (hds : ds ≠ [])
    (hdigits : ∀ c ∈ ds, c.isDigit = true) {n : ℤ}
    (hn : n = if neg then -(Nat.ofDigitChars 10 ds 0 : ℤ) else Nat.ofDigitChars 10 ds 0)
    (hlo : lo ≤ n) (hhi : n ≤ hi) :
    strtonumBetween lo hi ((if neg then '-' else '+') :: ds) = some n := by
  have hskip : ((if neg then '-' else '+') :: ds).dropWhile isSpace
      = (if neg then '-' else '+') :: ds := by
    cases neg <;> rfl
  have hsign : takeSign ((if neg then '-' else '+') :: ds) = (neg, ds) := by
    cases neg <;> rfl
  have hall : (ds.isEmpty || !ds.all Char.isDigit) = false := by
    rw [Bool.or_eq_false_iff, List.isEmpty_eq_false_iff, Bool.not_eq_false', List.all_eq_true]
    exact ⟨hds, hdigits⟩
  have hrange : ¬(n < lo ∨ hi < n) := by omega
  simp only [strtonumBetween, hskip, hsign, hall, Bool.false_eq_true, if_false]
  rw [← hn, if_neg hrange]

/-- `strtonum` gives the number that is spelled, where the bound allows it. -/
theorem strtonum_eq_some {hi n : ℕ} {s : List Char} :
    strtonum hi s = some n ↔ Spells n s ∧ n ≤ hi := by
  rw [strtonum, Spells]
  generalize takeSign (s.dropWhile isSpace) = r
  obtain ⟨neg, ds⟩ := r
  by_cases hdigits : ds ≠ [] ∧ ∀ c ∈ ds, c.isDigit = true
  · have hall : (ds.isEmpty || !ds.all Char.isDigit) = false := by
      rw [Bool.or_eq_false_iff, List.isEmpty_eq_false_iff, Bool.not_eq_false', List.all_eq_true]
      exact hdigits
    simp only [hall, Bool.false_eq_true, if_false]
    generalize Nat.ofDigitChars 10 ds 0 = v
    cases neg with
    | true =>
      by_cases hv : v = 0
      · subst hv
        simp [hdigits.1]
        grind
      · simp [hv]
        grind
    | false =>
      simp [hdigits.1]
      grind
  · have hall : (ds.isEmpty || !ds.all Char.isDigit) = true := by
      rw [← Bool.not_eq_false, Bool.or_eq_false_iff, List.isEmpty_eq_false_iff,
        Bool.not_eq_false', List.all_eq_true]
      exact hdigits
    simp only [hall, if_true, reduceCtorEq, false_iff]
    rintro ⟨⟨hne, hds, -⟩, -⟩
    exact hdigits ⟨hne, hds⟩

/-- `strtonum` reads back what has been printed. -/
theorem strtonum_decimal {hi n : ℕ} (hn : n ≤ hi) : strtonum hi (decimal n) = some n := by
  obtain ⟨d, ds, hds⟩ := List.exists_cons_of_ne_nil (decimal_ne_nil n)
  have hdigits : ∀ c ∈ decimal n, c.isDigit = true := fun c hc => isDigit_of_mem_decimal hc
  have hd : d.isDigit = true := hdigits d (by rw [hds]; exact List.mem_cons_self)
  have hskip : (decimal n).dropWhile isSpace = decimal n := by
    rw [hds, List.dropWhile_cons_of_neg]
    simp [not_isSpace_of_isDigit hd]
  have hsign : takeSign (decimal n) = (false, decimal n) := by
    rw [hds, takeSign_of_isDigit hd]
  have hall : ((decimal n).isEmpty || !(decimal n).all Char.isDigit) = false := by
    rw [Bool.or_eq_false_iff, List.isEmpty_eq_false_iff, Bool.not_eq_false', List.all_eq_true]
    exact ⟨decimal_ne_nil n, hdigits⟩
  have hvalue : Nat.ofDigitChars 10 (decimal n) 0 = n := Nat.ofDigitChars_ten_toDigits
  have hrange : ¬ hi < n := by omega
  simp only [strtonum, hskip, hsign, hall, Bool.false_eq_true, if_false, hvalue, hrange,
    decide_false, Bool.false_and, Bool.or_false]

/-- White space in front of a number is skipped. -/
theorem scanNum_append_of_isSpace {bits : ℕ} {ws s : List Char}
    (hws : ∀ c ∈ ws, isSpace c = true) : scanNum bits (ws ++ s) = scanNum bits s := by
  have : (ws ++ s).dropWhile isSpace = s.dropWhile isSpace :=
    List.dropWhile_append_of_pos hws
  simp only [scanNum, this]

theorem takeSign_suffix (s : List Char) : (takeSign s).2 <:+ s := by
  unfold takeSign
  split
  · exact List.suffix_cons _ _
  · exact List.suffix_cons _ _
  · exact List.suffix_refl _

/-- A number leaves the end of the text. -/
theorem scanNum_suffix {bits n : ℕ} {s rest : List Char} (h : scanNum bits s = some (n, rest)) :
    rest <:+ s := by
  unfold scanNum at h
  dsimp only at h
  split_ifs at h
  obtain ⟨-, rfl⟩ := Prod.mk.inj (Option.some.inj h)
  exact (List.dropWhile_suffix _).trans ((takeSign_suffix _).trans (List.dropWhile_suffix _))

theorem takeBytes_eq_some {n : ℕ} {s t rest : List Char} :
    takeBytes n s = some (t, rest) ↔ n ≠ 0 ∧ t.length = n ∧ s = t ++ rest := by
  unfold takeBytes
  constructor
  · intro h
    split_ifs at h with hno
    obtain ⟨rfl, rfl⟩ := Prod.mk.inj (Option.some.inj h)
    refine ⟨fun hn => hno (Or.inl hn), ?_, (List.take_append_drop n s).symm⟩
    rw [List.length_take]
    omega
  · rintro ⟨hn, hlen, rfl⟩
    have hlong : ¬ (n = 0 ∨ (t ++ rest).length < n) := by
      rw [List.length_append]
      omega
    rw [if_neg hlong, List.take_left' hlen, List.drop_left' hlen]

/-- There is no white space in front of a decimal number. -/
theorem dropWhile_decimal (n : ℕ) (s : List Char) :
    (decimal n ++ s).dropWhile isSpace = decimal n ++ s := by
  obtain ⟨d, ds, hds⟩ := List.exists_cons_of_ne_nil (decimal_ne_nil n)
  have hdigit : d.isDigit = true := by
    apply isDigit_of_mem_decimal (n := n)
    rw [hds]
    exact List.mem_cons_self
  rw [hds, List.cons_append, List.dropWhile_cons_of_neg]
  simp [not_isSpace_of_isDigit hdigit]

/-- A blank in front of one is skipped. -/
theorem dropWhile_blank_decimal (n : ℕ) (s : List Char) :
    (' ' :: (decimal n ++ s)).dropWhile isSpace = decimal n ++ s := by
  rw [List.dropWhile_cons_of_pos (by decide), dropWhile_decimal]

/-- Reading a decimal number gives the number back and stops right behind it. -/
theorem scanNum_decimal_bits {bits n : ℕ} (hbits : bits ≤ 64) (hn : n < 2 ^ bits)
    {rest : List Char} (hrest : ∀ c ∈ rest.head?, c.isDigit = false) :
    scanNum bits (decimal n ++ rest) = some (n, rest) := by
  obtain ⟨d, ds, hds⟩ := List.exists_cons_of_ne_nil (decimal_ne_nil n)
  have hdigits : ∀ c ∈ decimal n, c.isDigit = true := fun c hc => isDigit_of_mem_decimal hc
  have hd : d.isDigit = true := hdigits d (by rw [hds]; exact List.mem_cons_self)
  have hskip := dropWhile_decimal n rest
  have hsign : takeSign (decimal n ++ rest) = (false, decimal n ++ rest) := by
    rw [hds, List.cons_append, takeSign_of_isDigit hd]
  have htake : (decimal n ++ rest).takeWhile Char.isDigit = decimal n :=
    Strchr.takeWhile_stop hdigits hrest
  have hdrop : (decimal n ++ rest).dropWhile Char.isDigit = rest :=
    Strchr.dropWhile_stop hdigits hrest
  have hvalue : Nat.ofDigitChars 10 (decimal n) 0 = n := Nat.ofDigitChars_ten_toDigits
  have hconv : convert bits false n = n := by
    have hlong : n < 2 ^ 64 := Nat.lt_of_lt_of_le hn (Nat.pow_le_pow_right (by omega) hbits)
    rw [convert, if_neg (by omega)]
    exact Nat.mod_eq_of_lt hn
  simp [scanNum, hskip, hsign, htake, hdrop, hvalue, hconv, decimal_ne_nil]

theorem scanNum_decimal {n : ℕ} (hn : n < 2 ^ 64) {rest : List Char}
    (hrest : ∀ c ∈ rest.head?, c.isDigit = false) :
    scanNum 64 (decimal n ++ rest) = some (n, rest) :=
  scanNum_decimal_bits (Nat.le_refl 64) hn hrest

end Lib.Scanf
