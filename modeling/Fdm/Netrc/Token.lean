import Mathlib.Data.List.TakeWhile
import Fdm.Lib.Scanf

/-!
# Tokens of `.netrc`

`netrc_token` of `netrc.c`, and how tokens are written: bare or in quotes, with backslashes in front
of characters that are taken as they are.

* `netrcToken_token`: a token that stands in the file is read;
* `length_netrcToken`: each token uses up some of the file;
* `netrcToken_quote`: which strings are read back from quotes.
-/

namespace Fdm.Netrc

open Lib.Scanf

/-! ## The code -/

/-- `BUFSIZ`. -/
def bufsiz : ℕ := 8192

/-- What stands between tokens. -/
def isBlank (c : Char) : Bool := isSpace c || c = ','

/-- What `netrc_token` returns: 0 with a token, 1 at the end of the file, or -1. -/
inductive Got
  | token (s rest : List Char)
  | eof
  | error

/-- A string in the buffer ends at the first NUL. -/
def cString (s : List Char) : List Char := s.takeWhile (· ≠ '\x00')

/-- The loop for a token in quotes, with room for `n` characters in the buffer. -/
def quotedLoop : ℕ → List Char → Option (List Char × List Char)
  | _, [] => none -- missing "
  | _, '"' :: f => some ([], f)
  | _, ['\\'] => none
  | n, '\\' :: c :: f =>
    if n ≤ 1 then none else (quotedLoop (n - 1) f).map fun (s, f) => (c :: s, f)
  | n, c :: f => if n ≤ 1 then none else (quotedLoop (n - 1) f).map fun (s, f) => (c :: s, f)

/-- The loop for a bare token, behind its first character. -/
def bareLoop : ℕ → List Char → Option (List Char × List Char)
  | _, [] => some ([], [])
  | _, ['\\'] => some ([], [])
  | n, '\\' :: c :: f =>
    if n ≤ 1 then none else (bareLoop (n - 1) f).map fun (s, f) => (c :: s, f)
  | n, c :: f =>
    if isBlank c then some ([], f)
    else if n ≤ 1 then none
    else (bareLoop (n - 1) f).map fun (s, f) => (c :: s, f)

/-- `netrc_token`, on what is left of the file. -/
def netrcToken (f : List Char) : Got :=
  match f.dropWhile isBlank with
  | [] => .eof
  | '"' :: f =>
    match quotedLoop bufsiz f with
    | none => .error
    | some (s, f) => .token (cString s) f
  | c :: f =>
    match bareLoop (bufsiz - 1) f with
    | none => .error
    | some (s, f) => .token (cString (c :: s)) f

/-! ## How tokens are written -/

/-- A text without its backslashes. -/
def unescape : List Char → List Char
  | [] => []
  | '\\' :: c :: s => c :: unescape s
  | c :: s => c :: unescape s

/-- A backslash in front of a quote or a backslash. -/
def escape (s : List Char) : List Char :=
  s.flatMap fun c => if c = '"' ∨ c = '\\' then ['\\', c] else [c]

/-- A string in quotes. -/
def quote (s : List Char) : List Char := '"' :: (escape s ++ ['"'])

/-- None of the characters ends the token, and there is something behind each backslash. -/
def lasts (stop : Char → Bool) : List Char → Bool
  | [] => true
  | ['\\'] => false
  | '\\' :: _ :: s => lasts stop s
  | c :: s => !stop c && lasts stop s

/-- A token where it stands: the blanks in front of it and its text, with or without quotes. -/
structure Token where
  blanks : List Char
  quoted : Bool
  text : List Char

namespace Token

/-- The string that is written. -/
def value (t : Token) : List Char := unescape t.text

def chars (t : Token) : List Char := if t.quoted then '"' :: (t.text ++ ['"']) else t.text

/-- The text can be told from what stands around it, and the string is a string of C that fits into
the buffer. -/
def Sound (t : Token) : Prop :=
  (∀ c ∈ t.blanks, isBlank c = true) ∧
    (if t.quoted then lasts (· = '"') t.text = true
      else lasts isBlank t.text = true ∧ t.text ≠ [] ∧ t.text.head? ≠ some '"') ∧
    t.value.length < bufsiz ∧ '\x00' ∉ t.value

/-- A bare token starts with a backslash. It is taken for the first character, and makes another
string of the token. -/
def Misread (t : Token) : Prop :=
  t.quoted = false ∧ t.text.head? = some '\\' ∧ '\\' :: unescape t.text.tail ≠ t.value

end Token

/-- Tokens with what follows them. -/
def render : List Token → List Char → List Char
  | [], tail => tail
  | t :: ts, tail => t.blanks ++ (t.chars ++ render ts tail)

/-- A blank, or nothing at all, follows each bare token. -/
def Separated : List Token → List Char → Prop
  | [], _ => True
  | t :: ts, tail =>
    (t.quoted = false → ∀ c ∈ (render ts tail).head?, isBlank c = true) ∧ Separated ts tail

instance (t : Token) : Decidable t.Sound :=
  @instDecidableAnd _ _ (List.decidableBAll _ _)
    (inferInstanceAs (Decidable ((ite _ _ _) ∧ _ ∧ _)))

instance (t : Token) : Decidable t.Misread := inferInstanceAs (Decidable (_ ∧ _ ∧ _))

instance decidableSeparated : (ts : List Token) → (tail : List Char) → Decidable (Separated ts tail)
  | [], _ => isTrue trivial
  | _ :: ts, tail =>
    @instDecidableAnd _ _ (@instDecidableForall _ _ _ (Option.decidableForallMem _))
      (decidableSeparated ts tail)

/-- What is left of a file in which these tokens stand; the blanks in front may be gone. -/
def Stands (ts : List Token) (tail f : List Char) : Prop :=
  f.dropWhile isBlank = (render ts tail).dropWhile isBlank

/-! ## The loops -/

theorem cString_eq {s : List Char} (h : '\x00' ∉ s) : cString s = s := by
  rw [cString, Lib.Strchr.takeWhile_ne_self h]

theorem dropWhile_blanks {b : List Char} (h : ∀ c ∈ b, isBlank c = true) (s : List Char) :
    (b ++ s).dropWhile isBlank = s.dropWhile isBlank := by
  rw [List.dropWhile_append_of_pos h]

/-- A backslash takes the next character along. -/
theorem unescape_slash (c : Char) (s : List Char) : unescape ('\\' :: c :: s) = c :: unescape s := by
  rw [unescape]

theorem unescape_plain {c : Char} (hc : c ≠ '\\') (s : List Char) :
    unescape (c :: s) = c :: unescape s := by
  rw [unescape]
  intro d t h
  exact absurd h hc

theorem lasts_plain {stop : Char → Bool} {c : Char} (hc : c ≠ '\\') (s : List Char) :
    lasts stop (c :: s) = (!stop c && lasts stop s) := by
  rw [lasts]
  · intro h
    exact absurd h hc
  · intro d t h
    exact absurd h hc

/-- What was escaped is read back. -/
theorem unescape_escape (s : List Char) : unescape (escape s) = s := by
  induction s with
  | nil => rfl
  | cons c s ih =>
    rw [escape, List.flatMap_cons, ← escape]
    split_ifs with hc
    · rw [List.cons_append, List.singleton_append, unescape_slash, ih]
    · rw [not_or] at hc
      rw [List.singleton_append, unescape_plain hc.2, ih]

/-- No quote ends it early. -/
theorem lasts_escape (s : List Char) : lasts (· = '"') (escape s) = true := by
  induction s with
  | nil => rfl
  | cons c s ih =>
    rw [escape, List.flatMap_cons, ← escape]
    split_ifs with hc
    · rw [List.cons_append, List.singleton_append, lasts, ih]
    · rw [not_or] at hc
      rw [List.singleton_append, lasts_plain hc.2, ih]
      simp [hc.1]

theorem quotedLoop_slash (n : ℕ) (c : Char) (f : List Char) :
    quotedLoop n ('\\' :: c :: f) =
      if n ≤ 1 then none else (quotedLoop (n - 1) f).map fun (s, f) => (c :: s, f) := by
  rw [quotedLoop]

theorem quotedLoop_plain {c : Char} (hquote : c ≠ '"') (hslash : c ≠ '\\') (n : ℕ)
    (f : List Char) :
    quotedLoop n (c :: f) =
      if n ≤ 1 then none else (quotedLoop (n - 1) f).map fun (s, f) => (c :: s, f) := by
  rw [quotedLoop]
  · intro h
    exact absurd h hquote
  · intro h
    exact absurd h hslash
  · intro d g h
    exact absurd h hslash

theorem bareLoop_slash (n : ℕ) (c : Char) (f : List Char) :
    bareLoop n ('\\' :: c :: f) =
      if n ≤ 1 then none else (bareLoop (n - 1) f).map fun (s, f) => (c :: s, f) := by
  rw [bareLoop]

theorem bareLoop_plain {c : Char} (hslash : c ≠ '\\') (n : ℕ) (f : List Char) :
    bareLoop n (c :: f) =
      if isBlank c then some ([], f)
      else if n ≤ 1 then none
      else (bareLoop (n - 1) f).map fun (s, f) => (c :: s, f) := by
  rw [bareLoop]
  · intro h
    exact absurd h hslash
  · intro d g h
    exact absurd h hslash

/-- A backslash at the end is not followed by what it takes along. -/
theorem plain_of_lasts {stop : Char → Bool} {c : Char} {s : List Char}
    (hslash : ∀ d t, c = '\\' → s = d :: t → False) (h : lasts stop (c :: s) = true) :
    c ≠ '\\' := by
  rintro rfl
  cases s with
  | nil => cases h
  | cons d s => exact hslash d s rfl rfl

/-- A text that a backslash in front does not change can be told from what stands around it with the
backslash too. -/
theorem lasts_slash {stop : Char → Bool} {s : List Char} (h : lasts stop s = true)
    (hsame : unescape ('\\' :: s) = unescape s) : lasts stop ('\\' :: s) = true := by
  induction s using unescape.induct with
  | case1 => cases hsame
  | case2 c s ih =>
    rw [unescape_slash, unescape_slash, List.cons.injEq] at hsame
    obtain ⟨rfl, hsame⟩ := hsame
    rw [lasts] at h ⊢
    exact ih h hsame
  | case3 c s hslash ih =>
    have hplain : c ≠ '\\' := plain_of_lasts hslash h
    rw [lasts_plain hplain, Bool.and_eq_true] at h
    rw [lasts]
    exact h.2

/-- One more character fits when the others fit into one byte less. -/
theorem room_cons {c : Char} {s f : List Char} {n : ℕ} {rest : Option (List Char × List Char)}
    (hrest : 1 < n → rest = if s.length < n - 1 then some (s, f) else none) :
    (if n ≤ 1 then none else rest.map fun (s, f) => (c :: s, f)) =
      if s.length + 1 < n then some (c :: s, f) else none := by
  by_cases hroom : n ≤ 1
  · rw [if_pos hroom, if_neg (by omega)]
  · rw [if_neg hroom, hrest (by omega)]
    by_cases hfit : s.length < n - 1
    · rw [if_pos hfit, if_pos (by omega)]
      rfl
    · rw [if_neg hfit, if_neg (by omega)]
      rfl

/-- A text in quotes is read up to the closing quote, where it fits. -/
theorem quotedLoop_text {text : List Char} (h : lasts (· = '"') text = true) {n : ℕ} (hn : 0 < n)
    (f : List Char) :
    quotedLoop n (text ++ '"' :: f) =
      if (unescape text).length < n then some (unescape text, f) else none := by
  induction text using unescape.induct generalizing n with
  | case1 =>
    rw [List.nil_append, quotedLoop, unescape, List.length_nil, if_pos hn]
  | case2 c s ih =>
    rw [List.cons_append, List.cons_append, quotedLoop_slash, unescape_slash, List.length_cons]
    rw [lasts] at h
    exact room_cons fun hroom => ih h (by omega)
  | case3 c s hslash ih =>
    have hplain : c ≠ '\\' := plain_of_lasts hslash h
    rw [lasts_plain hplain, Bool.and_eq_true, Bool.not_eq_true', decide_eq_false_iff_not] at h
    rw [List.cons_append, quotedLoop_plain h.1 hplain, unescape_plain hplain, List.length_cons]
    exact room_cons fun hroom => ih h.2 (by omega)

/-- A bare text is read up to the blank behind it, which is read too. -/
theorem bareLoop_text {text : List Char} (h : lasts isBlank text = true) {n : ℕ}
    (hfit : (unescape text).length < n) {f : List Char} (hf : ∀ c ∈ f.head?, isBlank c = true) :
    bareLoop n (text ++ f) = some (unescape text, f.tail) := by
  induction text using unescape.induct generalizing n with
  | case1 =>
    rw [List.nil_append, unescape]
    cases f with
    | nil => rw [bareLoop, List.tail_nil]
    | cons c f =>
      have hblank : isBlank c = true := hf c rfl
      have hslash : c ≠ '\\' := by
        rintro rfl
        exact absurd hblank (by decide)
      rw [bareLoop_plain hslash, if_pos hblank, List.tail_cons]
  | case2 c s ih =>
    rw [unescape_slash, List.length_cons] at hfit
    rw [lasts] at h
    rw [List.cons_append, List.cons_append, bareLoop_slash, if_neg (by omega), ih h (by omega),
      unescape_slash]
    rfl
  | case3 c s hslash ih =>
    have hplain : c ≠ '\\' := plain_of_lasts hslash h
    rw [lasts_plain hplain, Bool.and_eq_true, Bool.not_eq_true'] at h
    rw [unescape_plain hplain, List.length_cons] at hfit
    rw [List.cons_append, bareLoop_plain hplain, if_neg (by simp [h.1]), if_neg (by omega),
      ih h.2 (by omega), unescape_plain hplain]
    rfl

/-! ## Reading tokens -/

/-- Blanks in front of a token are passed over. -/
theorem netrcToken_blanks {f g : List Char} (h : f.dropWhile isBlank = g.dropWhile isBlank) :
    netrcToken f = netrcToken g := by
  rw [netrcToken, netrcToken, h]

theorem netrcToken_quoted (f : List Char) :
    netrcToken ('"' :: f) =
      match quotedLoop bufsiz f with
      | none => .error
      | some (s, f) => .token (cString s) f := by
  rw [netrcToken, List.dropWhile_cons_of_neg (by decide)]
  rfl

theorem netrcToken_bare {c : Char} (hblank : isBlank c = false) (hquote : c ≠ '"') (f : List Char) :
    netrcToken (c :: f) =
      match bareLoop (bufsiz - 1) f with
      | none => .error
      | some (s, f) => .token (cString (c :: s)) f := by
  rw [netrcToken, List.dropWhile_cons_of_neg (by simp [hblank])]
  split
  · next h => cases h
  · next h => exact absurd (List.cons.inj h).1 hquote
  · next h =>
    cases h
    rfl

/-- A string is read back from its quotes just when it fits into the buffer. -/
theorem netrcToken_quote {s : List Char} (hnul : '\x00' ∉ s) (f : List Char) :
    netrcToken (quote s ++ f) = .token s f ↔ s.length < bufsiz := by
  have hread := quotedLoop_text (lasts_escape s) (n := bufsiz) (by decide) f
  rw [unescape_escape] at hread
  have hfile : quote s ++ f = '"' :: (escape s ++ '"' :: f) := by
    simp [quote]
  rw [hfile, netrcToken_quoted, hread]
  split_ifs with hfit
  · simp [hfit, cString_eq hnul]
  · simp [hfit]

/-- The token that stands next in the file is read. -/
theorem netrcToken_token {t : Token} {ts : List Token} {tail f : List Char} (hsound : t.Sound)
    (hread : ¬ t.Misread) (hseparated : Separated (t :: ts) tail)
    (hf : Stands (t :: ts) tail f) :
    ∃ g, netrcToken f = .token t.value g ∧ Stands ts tail g := by
  obtain ⟨hblanks, htext, hfit, hnul⟩ := hsound
  rw [Stands, render, dropWhile_blanks hblanks] at hf
  rw [netrcToken_blanks hf]
  cases hquoted : t.quoted with
  | true =>
    rw [if_pos hquoted] at htext
    have hloop := quotedLoop_text htext (n := bufsiz) (by decide) (render ts tail)
    rw [if_pos (show (unescape t.text).length < bufsiz from hfit)] at hloop
    have hchars : t.chars ++ render ts tail = '"' :: (t.text ++ '"' :: render ts tail) := by
      simp [Token.chars, hquoted]
    refine ⟨render ts tail, ?_, rfl⟩
    rw [hchars, netrcToken_quoted, hloop]
    exact congrArg (Got.token · _) (cString_eq hnul)
  | false =>
    rw [if_neg (by simp [hquoted])] at htext
    obtain ⟨hlasts, hne, hquote⟩ := htext
    obtain ⟨c, s, hs⟩ := List.exists_cons_of_ne_nil hne
    have hchar : isBlank c = false ∧ lasts isBlank s = true ∧ t.value = c :: unescape s := by
      rw [hs] at hlasts
      by_cases hslash : c = '\\'
      · -- the backslash is not the first of a pair any more
        have hsame : '\\' :: unescape s = t.value := by
          by_contra hne
          exact hread ⟨hquoted, by rw [hs, hslash]; rfl, by rwa [hs]⟩
        subst hslash
        cases s with
        | nil => cases hlasts
        | cons d s =>
          have hpair : t.value = d :: unescape s := by rw [Token.value, hs, unescape_slash]
          rw [hpair, List.cons.injEq] at hsame
          obtain ⟨rfl, hrest⟩ := hsame
          rw [lasts] at hlasts
          exact ⟨by decide, lasts_slash hlasts hrest, by rw [hpair, hrest]⟩
      · rw [lasts_plain hslash, Bool.and_eq_true, Bool.not_eq_true'] at hlasts
        exact ⟨hlasts.1, hlasts.2, by rw [Token.value, hs, unescape_plain hslash]⟩
    obtain ⟨hblank, hlasts, hvalue⟩ := hchar
    rw [hvalue, List.length_cons] at hfit
    have hloop := bareLoop_text hlasts (n := bufsiz - 1) (by omega) (hseparated.1 hquoted)
    have hchars : t.chars ++ render ts tail = c :: (s ++ render ts tail) := by
      simp [Token.chars, hquoted, hs]
    refine ⟨(render ts tail).tail, ?_, ?_⟩
    · rw [hchars, netrcToken_bare hblank (fun h => hquote (by rw [hs, h]; rfl)), hloop]
      rw [hvalue] at hnul
      simp only [hvalue, cString_eq hnul]
    · -- the blank behind the token does not matter
      rw [Stands]
      cases hrest : render ts tail with
      | nil => rfl
      | cons d rest =>
        have hd : isBlank d = true := hseparated.1 hquoted d (by rw [hrest]; rfl)
        rw [List.tail_cons, List.dropWhile_cons_of_pos hd]

/-- A character of the token leaves what is behind it. -/
theorem rest_cons {c : Char} {rest : Option (List Char × List Char)} {s g : List Char}
    (h : (rest.map fun (s, f) => (c :: s, f)) = some (s, g)) : ∃ s', rest = some (s', g) := by
  obtain ⟨⟨s', g'⟩, hrest, heq⟩ := Option.map_eq_some_iff.mp h
  cases heq
  exact ⟨s', hrest⟩

/-- The text in quotes is read, and the closing quote. -/
theorem length_quotedLoop {n : ℕ} {f s g : List Char} (h : quotedLoop n f = some (s, g)) :
    g.length < f.length := by
  fun_induction quotedLoop n f generalizing s g with
  | case1 | case3 | case4 | case6 => cases h
  | case2 n f =>
    cases h
    exact Nat.lt_succ_self _
  | case5 n c f hroom ih =>
    obtain ⟨s', hloop⟩ := rest_cons h
    exact (ih hloop).trans (by simp only [List.length_cons]; omega)
  | case7 n c f hquote hend hslash hroom ih =>
    obtain ⟨s', hloop⟩ := rest_cons h
    exact (ih hloop).trans (by simp)

theorem length_bareLoop {n : ℕ} {f s g : List Char} (h : bareLoop n f = some (s, g)) :
    g.length ≤ f.length := by
  fun_induction bareLoop n f generalizing s g with
  | case3 | case6 => cases h
  | case1 n =>
    cases h
    exact Nat.le_refl _
  | case2 n =>
    cases h
    exact Nat.zero_le _
  | case5 n c f hblank =>
    cases h
    exact Nat.le_succ _
  | case4 n c f hroom ih =>
    obtain ⟨s', hloop⟩ := rest_cons h
    exact (ih hloop).trans (by simp only [List.length_cons]; omega)
  | case7 n c f hend hslash hblank hroom ih =>
    obtain ⟨s', hloop⟩ := rest_cons h
    exact (ih hloop).trans (by simp)

/-- Each token uses up some of the file. -/
theorem length_netrcToken {f s g : List Char} (h : netrcToken f = .token s g) :
    g.length < f.length := by
  have hle := (List.dropWhile_sublist isBlank (l := f)).length_le
  rw [netrcToken] at h
  split at h
  · cases h
  · next f' hf =>
    rw [hf, List.length_cons] at hle
    cases hloop : quotedLoop bufsiz f' with
    | none =>
      rw [hloop] at h
      cases h
    | some q =>
      rw [hloop] at h
      cases h
      have hlt := length_quotedLoop hloop
      omega
  · next c f' hquote hf =>
    rw [hf, List.length_cons] at hle
    cases hloop : bareLoop (bufsiz - 1) f' with
    | none =>
      rw [hloop] at h
      cases h
    | some q =>
      rw [hloop] at h
      cases h
      have hle' := length_bareLoop hloop
      omega

/-- Behind the last token there is nothing. -/
theorem netrcToken_nil {tail f : List Char} (htail : ∀ c ∈ tail, isBlank c = true)
    (hf : Stands [] tail f) : netrcToken f = .eof := by
  have hnil : f.dropWhile isBlank = [] := by
    rw [hf, render, List.dropWhile_eq_nil_iff]
    exact htail
  rw [netrcToken, hnil]

end Fdm.Netrc
