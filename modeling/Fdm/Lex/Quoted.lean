import Fdm.Lex.Defs
import Fdm.Lib.Strchr
import Mathlib.Data.List.TakeWhile

/-!
# Quoted strings

What `read_string` makes of the text between two quotes.

* `Quoted`: the texts that can stand between double quotes, with their values;
* `readQuoted_double` and `readQuoted_single`: these are the texts that are read;
* `readQuoted_escaped`: every string has such a text.
-/

namespace Fdm.Lex

open Lib.Strchr (takeWhile_stop dropWhile_stop)

/-! ## The texts -/

/-- The name of a macro, between brackets. -/
structure BracketName (word : List Char) : Prop where
  first : ∃ c w, word = c :: w ∧ c.isAlphanum = true ∧ ∀ x ∈ w, isName x = true
  short : word.length + 1 < maxNameSize - 1

/-- A text between double quotes, and its value: other characters, a backslash and a character, and
the names of macros. -/
inductive Quoted (find : Macros) : List Char → List Char → Prop
  | nil : Quoted find [] []
  | char {c : Char} {t v : List Char} (hquote : c ≠ '"') (hback : c ≠ '\\')
      (hbracket : c = '$' ∨ c = '%' → t.head? ≠ some '{') (h : Quoted find t v) :
      Quoted find (c :: t) (c :: v)
  | escaped {c : Char} {t v : List Char} (h : Quoted find t v) :
      Quoted find ('\\' :: c :: t) (escape c :: v)
  | ref {type : Char} {word t v : List Char} (htype : type = '$' ∨ type = '%')
      (hword : BracketName word) (h : Quoted find t v) :
      Quoted find (type :: '{' :: (word ++ '}' :: t)) (expand (find (type :: word)) ++ v)

/-- A character of a string between double quotes. -/
def escapeChar (c : Char) : List Char :=
  if c = '"' ∨ c = '\\' ∨ c = '$' ∨ c = '%' then ['\\', c] else [c]

/-- A string between double quotes. -/
def escaped (s : List Char) : List Char := s.flatMap escapeChar

/-! ## Names -/

theorem takeWhile_isName {w : List Char} (hw : ∀ x ∈ w, isName x = true) (rest : List Char) :
    (w ++ '}' :: rest).takeWhile isName = w ∧
      (w ++ '}' :: rest).dropWhile isName = '}' :: rest := by
  have hstop : ∀ c ∈ ('}' :: rest).head?, isName c = false := by
    intro c hc
    obtain rfl := Option.some.inj hc
    decide
  exact ⟨takeWhile_stop hw hstop, dropWhile_stop hw hstop⟩

/-- `read_macro` reads a name and the bracket behind it. -/
theorem readMacro_bracket {type : Char} {cs name rest : List Char} :
    readMacro type '{' cs = .ok (name, rest) ↔
      ∃ word, name = type :: word ∧ cs = word ++ '}' :: rest ∧ BracketName word := by
  constructor
  · intro h
    unfold readMacro at h
    rw [if_pos rfl] at h
    cases cs with
    | nil => cases h
    | cons c cs =>
      dsimp only at h
      split at h
      · cases h
      · next halnum =>
        split at h
        · cases h
        · next word hname =>
          split at hname
          · cases hname
          · next hshort =>
            cases hname
            split at h
            · next cs' hdrop =>
              cases h
              have hfirst : c.isAlphanum = true := by simpa using halnum
              refine ⟨c :: cs.takeWhile isName, rfl, ?_, ⟨⟨c, _, rfl, hfirst, ?_⟩, ?_⟩⟩
              · have happend := List.takeWhile_append_dropWhile (p := isName) (l := cs)
                rw [List.cons_append, ← hdrop, happend]
              · intro x hx
                exact List.mem_takeWhile_imp hx
              · simp only [List.length_cons] at hshort ⊢
                omega
            · cases h
  · rintro ⟨word, rfl, rfl, ⟨⟨c, w, rfl, halnum, hw⟩, hshort⟩⟩
    have hlength : ¬ maxNameSize - 1 ≤ (type :: c :: w).length := by
      simp only [List.length_cons] at hshort ⊢
      omega
    unfold readMacro
    rw [if_pos rfl, List.cons_append]
    dsimp only
    rw [(takeWhile_isName hw rest).1, (takeWhile_isName hw rest).2, if_neg (by simp [halnum]),
      if_neg hlength]
    rfl

/-! ## Double quotes -/

section

variable {find : Macros}

/-- Characters in front of what is read. -/
def putFront (s : List Char) (r : Except LexError (List Char × List Char)) :
    Except LexError (List Char × List Char) := r.map fun p => (s ++ p.1, p.2)

/-- A string does not end with the text. -/
theorem readString_last {endch ch : Char} (esc : Bool) (n : ℕ) (hend : ch ≠ endch) :
    readString find endch esc n [ch] = .error (.missing endch) := by
  cases n with
  | zero =>
    unfold readString
    rfl
  | succ n =>
    have hnil : readString find endch esc n [] = .error (.missing endch) := by
      cases n <;> (unfold readString; rfl)
    unfold readString
    dsimp only
    rw [if_neg hend, hnil]
    split_ifs <;> rfl

/-- A character behind a backslash. -/
theorem readString_back {endch : Char} (n : ℕ) (x : Char) (cs : List Char) (hend : '\\' ≠ endch) :
    readString find endch true (n + 1) ('\\' :: x :: cs) =
      putFront [escape x] (readString find endch true n cs) := by
  conv_lhs => unfold readString
  dsimp only
  rw [if_neg hend, if_pos (by decide)]
  rfl

/-- A character that means nothing. -/
theorem readString_plain {endch ch : Char} {esc : Bool} (n : ℕ) (cs : List Char) (hend : ch ≠ endch)
    (hplain : esc = true → ch ≠ '\\' ∧ ch ≠ '$' ∧ ch ≠ '%') :
    readString find endch esc (n + 1) (ch :: cs) =
      putFront [ch] (readString find endch esc n cs) := by
  have hback : ¬ (decide (ch = '\\') && esc) = true := by
    cases esc with
    | false => simp
    | true => simp [hplain rfl]
  have hdollar : ¬ ((decide (ch = '$') || decide (ch = '%')) && esc) = true := by
    cases esc with
    | false => simp
    | true => simp [hplain rfl]
  conv_lhs => unfold readString
  dsimp only
  rw [if_neg hend, if_neg hback, if_neg hdollar]
  rfl

/-- The characters in front of a macro are not the backslash. -/
theorem ne_backslash {type : Char} (htype : type = '$' ∨ type = '%') : type ≠ '\\' := by
  rcases htype with rfl | rfl
  · decide
  · decide

/-- The name of a macro. -/
theorem readString_named {endch type : Char} (n : ℕ) (cs : List Char) (hend : type ≠ endch)
    (htype : type = '$' ∨ type = '%') :
    readString find endch true (n + 1) (type :: '{' :: cs) =
      (readMacro type '{' cs).bind fun p =>
        putFront (expand (find p.1)) (readString find endch true n p.2) := by
  conv_lhs => unfold readString
  simp only [Bool.and_true, Bool.or_eq_true, decide_eq_true_eq, if_neg hend,
    if_neg (ne_backslash htype), if_pos htype]
  cases readMacro type '{' cs with
  | error e => rfl
  | ok p => rfl

/-- Without a bracket behind it, it stands for itself. -/
theorem readString_lone {endch type x : Char} (n : ℕ) (cs : List Char) (hend : type ≠ endch)
    (htype : type = '$' ∨ type = '%') (hx : x ≠ '{') :
    readString find endch true (n + 1) (type :: x :: cs) =
      putFront [type] (readString find endch true n (x :: cs)) := by
  conv_lhs => unfold readString
  simp only [Bool.and_true, Bool.or_eq_true, decide_eq_true_eq, if_neg hend,
    if_neg (ne_backslash htype), if_pos htype]
  split
  · next heq => cases heq
  · next heq => exact absurd (List.cons_eq_cons.1 heq).1 hx
  · rfl

theorem putFront_ok {v s rest : List Char} {r : Except LexError (List Char × List Char)} :
    putFront s r = .ok (v, rest) ↔ ∃ v', r = .ok (v', rest) ∧ v = s ++ v' := by
  cases r with
  | error e => simp [putFront, Except.map]
  | ok p =>
    simp only [putFront, Except.map, Except.ok.injEq, Prod.mk.injEq]
    constructor
    · rintro ⟨rfl, rfl⟩
      exact ⟨p.1, rfl, rfl⟩
    · rintro ⟨v', rfl, rfl⟩
      exact ⟨rfl, rfl⟩

/-- Every text of the grammar is read. -/
theorem readString_quoted {t v : List Char} (h : Quoted find t v) (rest : List Char) (n : ℕ)
    (hn : (t ++ '"' :: rest).length ≤ n) :
    readString find '"' true n (t ++ '"' :: rest) = .ok (v, rest) := by
  induction h generalizing n with
  | nil =>
    cases n with
    | zero => simp at hn
    | succ n => exact readString_close '"' true n rest
  | @char c t v hquote hback hbracket _ ih =>
    cases n with
    | zero => simp at hn
    | succ n =>
      have hread := ih n (by simp only [List.cons_append, List.length_cons] at hn; omega)
      have hput := (putFront_ok (s := [c])).2 ⟨v, hread, rfl⟩
      rw [List.cons_append]
      by_cases hdollar : c = '$' ∨ c = '%'
      · -- the character behind it is looked at, and is no bracket
        cases t with
        | nil => rwa [List.nil_append, readString_lone n rest hquote hdollar (by decide)]
        | cons x t =>
          have hx : x ≠ '{' := fun hx => hbracket hdollar (by rw [hx]; rfl)
          rwa [List.cons_append, readString_lone n _ hquote hdollar hx]
      · rwa [readString_plain n _ hquote fun _ => ⟨hback, not_or.1 hdollar⟩]
  | @escaped c t v _ ih =>
    cases n with
    | zero => simp at hn
    | succ n =>
      have hread := ih n (by simp only [List.cons_append, List.length_cons] at hn; omega)
      rw [List.cons_append, List.cons_append, readString_back n c _ (by decide)]
      exact putFront_ok.2 ⟨v, hread, rfl⟩
  | @ref type word t v htype hword _ ih =>
    cases n with
    | zero => simp at hn
    | succ n =>
      have hread := ih n (by
        simp only [List.cons_append, List.length_cons, List.length_append] at hn ⊢
        omega)
      have hquote : type ≠ '"' := by
        rcases htype with rfl | rfl
        · decide
        · decide
      have htext : (word ++ '}' :: t) ++ '"' :: rest = word ++ '}' :: (t ++ '"' :: rest) := by
        rw [List.append_assoc, List.cons_append]
      have hnamed : readMacro type '{' ((word ++ '}' :: t) ++ '"' :: rest) =
          .ok (type :: word, t ++ '"' :: rest) :=
        readMacro_bracket.2 ⟨word, rfl, htext, hword⟩
      rw [List.cons_append, List.cons_append, readString_named n _ hquote htype, hnamed]
      exact putFront_ok.2 ⟨v, hread, rfl⟩

/-- What is read is a text of the grammar. -/
theorem exists_quoted {n : ℕ} {cs v rest : List Char}
    (h : readString find '"' true n cs = .ok (v, rest)) :
    ∃ t, cs = t ++ '"' :: rest ∧ Quoted find t v := by
  induction n generalizing cs v with
  | zero =>
    unfold readString at h
    cases h
  | succ n ih =>
    -- a first character that is kept, whatever it means
    have hput : ∀ {c s}, putFront [c] (readString find '"' true n s) = .ok (v, rest) →
        c ≠ '"' → c ≠ '\\' → (c = '$' ∨ c = '%' → s.head? ≠ some '{') →
        ∃ t, c :: s = t ++ '"' :: rest ∧ Quoted find t v := by
      intro c s h hquote hback hbracket
      obtain ⟨v', hread, rfl⟩ := putFront_ok.1 h
      obtain ⟨t, rfl, hq⟩ := ih hread
      refine ⟨c :: t, rfl, .char hquote hback (fun hdollar hhead => hbracket hdollar ?_) hq⟩
      rw [List.head?_append, hhead, Option.some_or]
    cases cs with
    | nil =>
      unfold readString at h
      cases h
    | cons c cs =>
      by_cases hquote : c = '"'
      · rw [hquote, readString_close] at h
        cases h
        exact ⟨[], by rw [hquote, List.nil_append], .nil⟩
      cases cs with
      | nil =>
        rw [readString_last true _ hquote] at h
        cases h
      | cons x cs =>
        by_cases hback : c = '\\'
        · rw [hback, readString_back n x cs (by decide)] at h
          obtain ⟨v', hread, rfl⟩ := putFront_ok.1 h
          obtain ⟨t, rfl, hq⟩ := ih hread
          exact ⟨'\\' :: x :: t, by rw [hback, List.cons_append, List.cons_append], .escaped hq⟩
        by_cases htype : c = '$' ∨ c = '%'
        · by_cases hx : x = '{'
          · rw [hx, readString_named n cs hquote htype] at h
            cases hnamed : readMacro c '{' cs with
            | error e =>
              rw [hnamed] at h
              cases h
            | ok p =>
              rw [hnamed] at h
              obtain ⟨word, hname, rfl, hword⟩ := readMacro_bracket.1 hnamed
              obtain ⟨v', hread, rfl⟩ := putFront_ok.1 h
              obtain ⟨t, hrest, hq⟩ := ih hread
              refine ⟨c :: '{' :: (word ++ '}' :: t), ?_, ?_⟩
              · rw [hx, hrest]
                simp
              · rw [hname]
                exact .ref htype hword hq
          · rw [readString_lone n cs hquote htype hx] at h
            exact hput h hquote hback fun _ hhead => hx (Option.some.inj hhead)
        · rw [readString_plain n _ hquote fun _ => ⟨hback, not_or.1 htype⟩] at h
          exact hput h hquote hback fun hdollar => absurd hdollar htype

end

/-- What is read between double quotes is a text of the grammar with its value. -/
theorem readQuoted_double {find : Macros} {cs v rest : List Char} :
    readQuoted find '"' cs = .ok (v, rest) ↔ ∃ t, cs = t ++ '"' :: rest ∧ Quoted find t v := by
  have hesc : decide ('"' = '"') = true := rfl
  rw [readQuoted, hesc]
  constructor
  · exact exists_quoted
  · rintro ⟨t, rfl, h⟩
    exact readString_quoted h rest _ le_rfl

/-- Between single quotes all is taken as it is. -/
theorem readQuoted_single {find : Macros} {cs v rest : List Char} :
    readQuoted find '\'' cs = .ok (v, rest) ↔ cs = v ++ '\'' :: rest ∧ '\'' ∉ v := by
  have hesc : decide ('\'' = '"') = false := rfl
  rw [readQuoted, hesc]
  suffices hall : ∀ n, cs.length ≤ n → (readString find '\'' false n cs = .ok (v, rest) ↔
      cs = v ++ '\'' :: rest ∧ '\'' ∉ v) from hall _ le_rfl
  intro n hn
  induction n generalizing cs v with
  | zero =>
    obtain rfl := List.length_eq_zero_iff.1 (Nat.le_zero.1 hn)
    unfold readString
    simp
  | succ n ih =>
    cases cs with
    | nil =>
      unfold readString
      simp
    | cons c cs =>
      have ih' := fun v => @ih cs v (by rw [List.length_cons] at hn; omega)
      by_cases hend : c = '\''
      · rw [hend, readString_close]
        constructor
        · intro h
          cases h
          exact ⟨rfl, List.not_mem_nil⟩
        · rintro ⟨heq, hv⟩
          cases v with
          | nil =>
            obtain ⟨-, rfl⟩ := List.cons_eq_cons.1 heq
            rfl
          | cons x v =>
            obtain ⟨rfl, -⟩ := List.cons_eq_cons.1 heq
            exact absurd List.mem_cons_self hv
      · rw [readString_plain n cs hend (fun h => absurd h Bool.false_ne_true), putFront_ok]
        constructor
        · rintro ⟨v', hread, rfl⟩
          obtain ⟨rfl, hv⟩ := (ih' v').1 hread
          refine ⟨rfl, fun hmem => ?_⟩
          rcases List.mem_cons.1 hmem with heq | hmem
          · exact hend heq.symm
          · exact hv hmem
        · rintro ⟨heq, hv⟩
          cases v with
          | nil =>
            obtain ⟨hc, -⟩ := List.cons_eq_cons.1 heq
            exact absurd hc hend
          | cons x v =>
            obtain ⟨rfl, rfl⟩ := List.cons_eq_cons.1 heq
            exact ⟨v, (ih' v).2 ⟨rfl, fun hmem => hv (List.mem_cons_of_mem c hmem)⟩, rfl⟩

/-- Every string has a text between double quotes. -/
theorem quoted_escaped (find : Macros) (s : List Char) : Quoted find (escaped s) s := by
  induction s with
  | nil => exact .nil
  | cons c s ih =>
    rw [escaped, List.flatMap_cons, ← escaped, escapeChar]
    split
    · next hc =>
      have hplain : escape c = c := by
        rcases hc with rfl | rfl | rfl | rfl
        · decide
        · decide
        · decide
        · decide
      have hq := Quoted.escaped (c := c) ih
      rwa [hplain] at hq
    · next hc =>
      simp only [not_or] at hc
      exact .char hc.1 hc.2.1 (fun hdollar => absurd hdollar (by simp [hc.2.2])) ih

end Fdm.Lex
