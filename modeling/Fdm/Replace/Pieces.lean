import Fdm.Lib.Strchr
import Fdm.Replace

/-!
# The pieces of a template

A template is cut into characters and references, and each piece has a value of its own. `replace`
gives these values one behind the other, except that `strip` is never set again once a reference
with a `:` has cleared it.

* `replaceFrom_eq`: the loop of `replace`, piece by piece;
* `pieces_append`: how a template is cut behind a reference does not depend on what is in front;
* `compositional_iff`: when templates can be expanded part by part.
-/

namespace Fdm.Replace

open Lib.Strchr (takeWhile_ne dropWhile_ne)

/-! ## Cutting a template -/

/-- A piece of a template. A `verbatim` reference has a `:`. -/
inductive Piece
  | char (ch : Char)
  | percent
  | opened
  | tag (verbatim : Bool) (key : List Char)
  | alias (ch : Char)
  | group (verbatim : Bool) (ch : Char)
  | escaped (ch : Char)
  | dangling
  | torn
deriving DecidableEq, Repr

/-- The name between brackets, and the template behind them. -/
def bracketed (s : List Char) : Piece × List Char :=
  let key := s.takeWhile (· ≠ ']')
  let rest := (s.dropWhile (· ≠ ']')).drop 1
  if key.head? = some ':' then (.tag true (key.drop 1), rest) else (.tag false key, rest)

/-- The piece that a `%` starts, and the template behind it. -/
def reference : List Char → Piece × List Char
  | [] => (.dangling, [])
  | '%' :: s => (.percent, s)
  | '[' :: s => if ']' ∈ s then bracketed s else (.opened, s)
  | [':'] => (.torn, [])
  | ':' :: ch :: s => if ch.isDigit then (.group true ch, s) else (.escaped ch, s)
  | ch :: s => if ch.isDigit then (.group false ch, s) else (.alias ch, s)

/-- The pieces, one for each character at most. -/
def piecesFrom : ℕ → List Char → List Piece
  | 0, _ => []
  | _ + 1, [] => []
  | fuel + 1, '%' :: s => (reference s).1 :: piecesFrom fuel (reference s).2
  | fuel + 1, ch :: s => .char ch :: piecesFrom fuel s

/-- The pieces of a template. -/
def pieces (s : List Char) : List Piece := piecesFrom s.length s

/-- The piece is complete: what follows does not change it. -/
def Piece.complete : Piece → Bool
  | .opened | .dangling | .torn => false
  | _ => true

/-- The template ends at a boundary: each of its references is complete. -/
def Whole (s : List Char) : Prop := ∀ p ∈ pieces s, p.complete = true

instance (s : List Char) : Decidable (Whole s) :=
  inferInstanceAs (Decidable (∀ p ∈ pieces s, p.complete = true))

theorem suffix_bracketed (s : List Char) : (bracketed s).2 <:+ s := by
  have hdrop : (s.dropWhile (· ≠ ']')).drop 1 <:+ s :=
    (List.drop_suffix _ _).trans (List.dropWhile_suffix _)
  rw [bracketed]
  split_ifs
  · exact hdrop
  · exact hdrop

/-- What is behind a reference is the end of the template. -/
theorem suffix_reference (s : List Char) : (reference s).2 <:+ s := by
  unfold reference
  split
  · exact List.suffix_refl _
  · exact List.suffix_cons _ _
  · next s =>
    split_ifs
    · exact (suffix_bracketed s).trans (List.suffix_cons _ _)
    · exact List.suffix_cons _ _
  · exact List.nil_suffix
  · next ch s =>
    split_ifs <;> exact (List.suffix_cons ch s).trans (List.suffix_cons ':' _)
  · split_ifs <;> exact List.suffix_cons _ _

theorem length_reference (s : List Char) : (reference s).2.length ≤ s.length :=
  (suffix_reference s).length_le

/-- More fuel than characters changes nothing. -/
theorem piecesFrom_of_le {fuel : ℕ} {s : List Char} (h : s.length ≤ fuel) :
    piecesFrom fuel s = pieces s := by
  have hmore : ∀ (n fuel : ℕ) (s : List Char), s.length ≤ n → s.length ≤ fuel →
      piecesFrom fuel s = piecesFrom n s := by
    intro n
    induction n with
    | zero =>
      intro fuel s hn _
      rw [List.length_eq_zero_iff.mp (Nat.le_zero.mp hn)]
      cases fuel <;> rfl
    | succ n ih =>
      intro fuel s hn hfuel
      cases s with
      | nil => cases fuel <;> rfl
      | cons ch s =>
        rw [List.length_cons] at hn hfuel
        obtain ⟨fuel, rfl⟩ : ∃ k, fuel = k + 1 := ⟨fuel - 1, by omega⟩
        by_cases hch : ch = '%'
        · subst hch
          have hlength := length_reference s
          rw [piecesFrom, piecesFrom, ih fuel (reference s).2 (by omega) (by omega)]
        · rw [piecesFrom, piecesFrom, ih fuel s (by omega) (by omega)]
          · exact hch
          · exact hch
  exact hmore s.length fuel s (Nat.le_refl _) h

theorem pieces_nil : pieces [] = [] := rfl

theorem pieces_percent (s : List Char) :
    pieces ('%' :: s) = (reference s).1 :: pieces (reference s).2 := by
  rw [pieces, List.length_cons, piecesFrom, piecesFrom_of_le (length_reference s)]

theorem pieces_char {ch : Char} (hch : ch ≠ '%') (s : List Char) :
    pieces (ch :: s) = .char ch :: pieces s := by
  rw [pieces, List.length_cons, piecesFrom]
  · rfl
  · exact hch

theorem bracketed_append {s : List Char} (h : ']' ∈ s) (t : List Char) :
    bracketed (s ++ t) = ((bracketed s).1, (bracketed s).2 ++ t) := by
  obtain ⟨a, b, rfl, ha⟩ := List.eq_append_cons_of_mem h
  have htake := takeWhile_ne ha
  have hdrop := dropWhile_ne ha
  rw [List.append_assoc, List.cons_append, bracketed, bracketed, htake, htake, hdrop, hdrop]
  split_ifs <;> rfl

/-- What follows a complete piece does not change it. -/
theorem reference_append {s : List Char} (h : (reference s).1.complete = true) (t : List Char) :
    reference (s ++ t) = ((reference s).1, (reference s).2 ++ t) := by
  cases s with
  | nil => cases h
  | cons ch s =>
    by_cases hpercent : ch = '%'
    · subst hpercent
      rfl
    by_cases hopen : ch = '['
    · subst hopen
      rw [reference] at h
      by_cases hclose : ']' ∈ s
      · rw [List.cons_append, reference, reference, if_pos hclose,
          if_pos (List.mem_append_left t hclose), bracketed_append hclose]
      · rw [if_neg hclose] at h
        cases h
    by_cases hcolon : ch = ':'
    · subst hcolon
      cases s with
      | nil => cases h
      | cons ch s =>
        rw [List.cons_append, List.cons_append, reference, reference]
        split_ifs <;> rfl
    · rw [List.cons_append, reference, reference]
      · split_ifs <;> rfl
      all_goals first | exact hpercent | exact hopen | simp [hcolon]

/-- A template is cut at its boundaries. -/
theorem pieces_append {s : List Char} (hs : Whole s) (t : List Char) :
    pieces (s ++ t) = pieces s ++ pieces t := by
  have hall : ∀ (n : ℕ) (s : List Char), s.length ≤ n → Whole s →
      pieces (s ++ t) = pieces s ++ pieces t := by
    intro n
    induction n with
    | zero =>
      intro s hn _
      rw [List.length_eq_zero_iff.mp (Nat.le_zero.mp hn)]
      rfl
    | succ n ih =>
      intro s hn hs
      cases s with
      | nil => rfl
      | cons ch s =>
        rw [List.length_cons] at hn
        by_cases hch : ch = '%'
        · subst hch
          rw [Whole, pieces_percent, List.forall_mem_cons] at hs
          have hlength := length_reference s
          rw [List.cons_append, pieces_percent, pieces_percent, reference_append hs.1,
            ih (reference s).2 (by omega) hs.2, List.cons_append]
        · rw [Whole, pieces_char hch, List.forall_mem_cons] at hs
          rw [List.cons_append, pieces_char hch, pieces_char hch, ih s (by omega) hs.2,
            List.cons_append]
  exact hall s.length s (Nat.le_refl _) hs

/-! ## The value of a piece -/

section

variable (stripChars : List Char) (findTag : List Char → Option (List Char))
  (sub : Char → Option (List Char))

/-- What a piece gives when it is no reference. -/
def Piece.text : Piece → List Char
  | .char ch => [ch]
  | .percent => ['%']
  | .opened => ['%', '[']
  | .escaped ch => [ch]
  | _ => []

@[simp] theorem Piece.text_char (ch : Char) : (Piece.char ch).text = [ch] := rfl
@[simp] theorem Piece.text_percent : Piece.percent.text = ['%'] := rfl
@[simp] theorem Piece.text_opened : Piece.opened.text = ['%', '['] := rfl
@[simp] theorem Piece.text_escaped (ch : Char) : (Piece.escaped ch).text = [ch] := rfl
@[simp] theorem Piece.text_dangling : Piece.dangling.text = [] := rfl

/-- Whether a reference has a `:`, and what it refers to. -/
def Piece.value : Piece → Option (Bool × List Char)
  | .tag verbatim key => some (verbatim, if key = [] then [] else (findTag key).getD [])
  | .alias ch => some (false, ((aliasOf ch).bind fun key => findTag key.toList).getD [])
  | .group verbatim ch => some (verbatim, (sub ch).getD [])
  | _ => none

/-- A piece written with or without the strip characters. -/
def Piece.emit (strip : Bool) (p : Piece) : List Char :=
  match p.value findTag sub with
  | none => p.text
  | some (_, value) => written stripChars strip value

/-- The value of a piece by itself: stripped unless there is a `:`. -/
def Piece.own (p : Piece) : List Char :=
  match p.value findTag sub with
  | none => p.text
  | some (verbatim, value) => written stripChars (!verbatim) value

/-- What a template stands for. -/
def own (s : List Char) : List Char :=
  (pieces s).flatMap (Piece.own stripChars findTag sub)

/-- The piece makes `replace` clear `strip`. -/
def Piece.clears : Piece → Bool
  | .tag verbatim _ => verbatim
  | .group verbatim ch => verbatim && (sub ch).isSome
  | _ => false

/-- The pieces, as the loop of `replace` writes them. -/
def expand : Bool → List Piece → Option (List Char)
  | _, [] => some []
  | strip, p :: ps =>
    if p = .torn then none
    else
      (expand (strip && !p.clears sub) ps).map
        (p.emit stripChars findTag sub (strip && !p.clears sub) ++ ·)

/-- The piece has no `:`, or nothing to strip. -/
def Piece.clean (p : Piece) : Bool :=
  match p.value findTag sub with
  | some (false, value) => value.all fun c => c ≠ '\x00' ∧ c ∉ stripChars
  | _ => true

/-- The template does not end behind `%:`, and behind a reference that has cleared `strip` there is
nothing left to strip. -/
def regular : Bool → List Piece → Bool
  | _, [] => true
  | strip, p :: ps =>
    p ≠ .torn && (strip || p.clean stripChars findTag sub) && regular (strip && !p.clears sub) ps

end

section

variable {stripChars : List Char} {findTag : List Char → Option (List Char)}
  {sub : Char → Option (List Char)}

theorem percent_bracket {s : List Char} (h : ']' ∈ s) (strip : Bool) :
    bracket stripChars findTag strip s =
      some ((bracketed s).1.emit stripChars findTag sub (strip && !(bracketed s).1.clears sub),
        strip && !(bracketed s).1.clears sub, (bracketed s).2) := by
  have hwritten : ∀ strip, written stripChars strip [] = [] := by
    intro strip
    cases strip <;> rfl
  have hemit : ∀ (verbatim strip : Bool) (key : List Char),
      (Piece.tag verbatim key).emit stripChars findTag sub strip =
        if key = [] then [] else (findTag key).elim [] (written stripChars strip) := by
    intro verbatim strip key
    rw [Piece.emit, Piece.value]
    by_cases hkey : key = []
    · rw [if_pos hkey, if_pos hkey]
      dsimp only
      rw [hwritten]
    · rw [if_neg hkey, if_neg hkey]
      cases findTag key with
      | none =>
        dsimp only
        rw [Option.elim_none, Option.getD_none, hwritten]
      | some value => rfl
  rw [bracket, if_pos h, bracketed]
  by_cases hcolon : (s.takeWhile (· ≠ ']')).head? = some ':'
  · simp only [if_pos hcolon, Piece.clears, Bool.not_true, Bool.and_false, hemit]
    split_ifs
    · rfl
    · cases findTag ((s.takeWhile (· ≠ ']')).drop 1) <;> rfl
  · simp only [if_neg hcolon, Piece.clears, Bool.not_false, Bool.and_true, hemit]
    split_ifs
    · rfl
    · cases findTag (s.takeWhile (· ≠ ']')) <;> rfl

/-- A `%` sequence of `replace` is the piece it starts. -/
theorem percent_eq (strip : Bool) (s : List Char) :
    percent stripChars findTag sub strip s =
      if (reference s).1 = .torn then none
      else
        some ((reference s).1.emit stripChars findTag sub (strip && !(reference s).1.clears sub),
          strip && !(reference s).1.clears sub, (reference s).2) := by
  have hwritten : ∀ strip, written stripChars strip [] = [] := by
    intro strip
    cases strip <;> rfl
  cases s with
  | nil => simp [percent, reference, Piece.emit, Piece.value, Piece.clears]
  | cons ch s =>
    by_cases hpercent : ch = '%'
    · subst hpercent
      simp [percent, reference, Piece.emit, Piece.value, Piece.clears]
    by_cases hopen : ch = '['
    · subst hopen
      rw [percent, reference]
      by_cases hclose : ']' ∈ s
      · have htorn : (bracketed s).1 ≠ .torn := by
          rw [bracketed]
          split_ifs <;> simp
        rw [if_pos hclose, if_neg htorn, percent_bracket hclose]
      · rw [if_neg hclose, bracket, if_neg hclose, if_neg (by simp)]
        simp [Piece.emit, Piece.value, Piece.clears]
    by_cases hcolon : ch = ':'
    · subst hcolon
      cases s with
      | nil => rfl
      | cons ch s =>
        rw [percent, colon, reference]
        by_cases hdigit : ch.isDigit = true
        · rw [if_pos hdigit, if_pos hdigit, if_neg (by simp)]
          cases hsub : sub ch with
          | none => simp [Piece.emit, Piece.value, Piece.clears, hsub, hwritten]
          | some value => simp [Piece.emit, Piece.value, Piece.clears, hsub]
        · rw [if_neg hdigit, if_neg hdigit, if_neg (by simp)]
          simp [Piece.emit, Piece.value, Piece.clears]
    · rw [percent, reference]
      · by_cases hdigit : ch.isDigit = true
        · rw [if_pos hdigit, if_pos hdigit, if_neg (by simp)]
          simp [Piece.emit, Piece.value, Piece.clears]
        · rw [if_neg hdigit, if_neg hdigit, if_neg (by simp)]
          simp [Piece.emit, Piece.value, Piece.clears]
      all_goals first | exact hpercent | exact hopen | simp [hcolon]

/-- The loop of `replace` goes from piece to piece. -/
theorem replaceFrom_eq (fuel : ℕ) (strip : Bool) (s : List Char) :
    replaceFrom stripChars findTag sub fuel strip s =
      expand stripChars findTag sub strip (piecesFrom fuel s) := by
  induction fuel generalizing strip s with
  | zero => rfl
  | succ fuel ih =>
    cases s with
    | nil => rfl
    | cons ch s =>
      by_cases hch : ch = '%'
      · subst hch
        rw [replaceFrom, piecesFrom, expand, percent_eq]
        by_cases htorn : (reference s).1 = .torn
        · rw [if_pos htorn, if_pos htorn, Option.bind_none]
        · rw [if_neg htorn, if_neg htorn, Option.bind_some]
          dsimp only
          rw [ih]
      · rw [replaceFrom, piecesFrom, expand, if_neg (by simp), ih]
        · simp [Piece.clears, Piece.emit, Piece.value]
        · exact hch
        · exact hch

theorem replaceWith_eq (s : List Char) :
    replaceWith stripChars findTag sub s = expand stripChars findTag sub true (pieces s) :=
  replaceFrom_eq _ _ _

/-! ## When the values are those of the pieces -/

theorem written_nil (strip : Bool) : written stripChars strip [] = [] := by
  cases strip <;> rfl

theorem length_written_le (strip : Bool) (value : List Char) :
    (written stripChars true value).length ≤ (written stripChars strip value).length := by
  cases strip with
  | true => exact Nat.le_refl _
  | false => exact List.length_filter_le _ value

/-- A reference without a `:` does not clear `strip`. -/
theorem clears_of_value {p : Piece} {value : List Char}
    (h : p.value findTag sub = some (false, value)) : p.clears sub = false := by
  cases p with
  | tag verbatim key =>
    rw [Piece.value, Option.some.injEq, Prod.mk.injEq] at h
    exact h.1
  | group verbatim ch =>
    rw [Piece.value, Option.some.injEq, Prod.mk.injEq] at h
    rw [Piece.clears, h.1, Bool.false_and]
  | _ => rfl

/-- A reference with a `:` is written as it is. -/
theorem written_of_value {p : Piece} {value : List Char} (strip : Bool)
    (h : p.value findTag sub = some (true, value)) :
    written stripChars (strip && !p.clears sub) value = value := by
  cases p with
  | tag verbatim key =>
    rw [Piece.value, Option.some.injEq, Prod.mk.injEq] at h
    rw [Piece.clears, h.1, Bool.not_true, Bool.and_false]
    rfl
  | group verbatim ch =>
    rw [Piece.value, Option.some.injEq, Prod.mk.injEq] at h
    rw [Piece.clears, h.1, Bool.true_and]
    cases hsub : sub ch with
    | none =>
      rw [hsub, Option.getD_none] at h
      rw [← h.2, written_nil]
    | some found =>
      rw [Option.isSome_some, Bool.not_true, Bool.and_false]
      rfl
  | «alias» ch =>
    rw [Piece.value, Option.some.injEq, Prod.mk.injEq] at h
    cases h.1
  | _ => cases h

/-- Stripping only shortens. -/
theorem length_own_le (strip : Bool) (p : Piece) :
    (p.own stripChars findTag sub).length ≤
      (p.emit stripChars findTag sub (strip && !p.clears sub)).length := by
  rw [Piece.own, Piece.emit]
  cases h : p.value findTag sub with
  | none => exact Nat.le_refl _
  | some found =>
    obtain ⟨verbatim, value⟩ := found
    cases verbatim with
    | false => exact length_written_le _ value
    | true =>
      dsimp only
      rw [written_of_value strip h]
      exact Nat.le_refl _

/-- What is written for a piece is its own value just when there is nothing left to strip. -/
theorem emit_eq_own_iff (strip : Bool) (p : Piece) :
    p.emit stripChars findTag sub (strip && !p.clears sub) = p.own stripChars findTag sub ↔
      (strip || p.clean stripChars findTag sub) = true := by
  rw [Piece.own, Piece.emit, Piece.clean]
  cases h : p.value findTag sub with
  | none => simp
  | some found =>
    obtain ⟨verbatim, value⟩ := found
    cases verbatim with
    | true =>
      dsimp only
      rw [written_of_value strip h]
      simp [written]
    | false =>
      dsimp only
      rw [clears_of_value h, Bool.not_false, Bool.and_true]
      cases strip with
      | true => simp
      | false =>
        rw [Bool.false_or, List.all_eq_true]
        show value = value.filter _ ↔ _
        rw [eq_comm, List.filter_eq_self]

theorem length_flatMap_own_le {strip : Bool} {ps : List Piece} {out : List Char}
    (h : expand stripChars findTag sub strip ps = some out) :
    (ps.flatMap (Piece.own stripChars findTag sub)).length ≤ out.length := by
  induction ps generalizing strip out with
  | nil => exact Nat.zero_le _
  | cons p ps ih =>
    rw [expand] at h
    split_ifs at h
    obtain ⟨out, hout, rfl⟩ := Option.map_eq_some_iff.mp h
    have hp : (p.own stripChars findTag sub).length ≤
        (p.emit stripChars findTag sub (strip && !p.clears sub)).length := length_own_le strip p
    have hps := ih hout
    rw [List.flatMap_cons, List.length_append, List.length_append]
    omega

/-- The values written are those of the pieces just when the template is regular. -/
theorem expand_eq_own_iff (strip : Bool) (ps : List Piece) :
    expand stripChars findTag sub strip ps =
        some (ps.flatMap (Piece.own stripChars findTag sub)) ↔
      regular stripChars findTag sub strip ps = true := by
  induction ps generalizing strip with
  | nil => simp [expand, regular]
  | cons p ps ih =>
    rw [expand, regular, Bool.and_eq_true, Bool.and_eq_true, decide_eq_true_iff]
    by_cases htorn : p = .torn
    · simp [htorn]
    rw [if_neg htorn, ← ih, ← emit_eq_own_iff, Option.map_eq_some_iff, List.flatMap_cons]
    constructor
    · rintro ⟨out, hout, heq⟩
      -- both parts are at least as long as they should be
      have hp : (p.own stripChars findTag sub).length ≤
        (p.emit stripChars findTag sub (strip && !p.clears sub)).length := length_own_le strip p
      have hps := length_flatMap_own_le hout
      have hlength := congrArg List.length heq
      rw [List.length_append, List.length_append] at hlength
      obtain ⟨hemit, rfl⟩ := List.append_inj heq (by omega)
      exact ⟨⟨htorn, hemit⟩, hout⟩
    · rintro ⟨⟨-, hemit⟩, hout⟩
      exact ⟨_, hout, by rw [hemit]⟩

theorem regular_of_false {ps : List Piece} (h : regular stripChars findTag sub false ps = true) :
    regular stripChars findTag sub true ps = true := by
  induction ps with
  | nil => rfl
  | cons p ps ih =>
    rw [regular, Bool.and_eq_true, Bool.and_eq_true, Bool.false_and] at h
    rw [regular, Bool.and_eq_true, Bool.and_eq_true, Bool.true_and]
    refine ⟨⟨h.1.1, rfl⟩, ?_⟩
    cases p.clears sub with
    | true => exact h.2
    | false => exact ih h.2

/-- A part of a regular template is regular. -/
theorem regular_append {strip : Bool} {ps qs : List Piece}
    (h : regular stripChars findTag sub strip (ps ++ qs) = true) :
    regular stripChars findTag sub strip ps = true ∧
      regular stripChars findTag sub true qs = true := by
  induction ps generalizing strip with
  | nil =>
    refine ⟨rfl, ?_⟩
    cases strip with
    | true => exact h
    | false => exact regular_of_false h
  | cons p ps ih =>
    rw [List.cons_append, regular, Bool.and_eq_true] at h
    rw [regular, Bool.and_eq_true]
    exact ⟨⟨h.1, (ih h.2).1⟩, (ih h.2).2⟩

/-! ## Templates part by part -/

/-- Both parts have the values of their pieces, and the whole has one behind the other. -/
structure Compositional {α : Type} (stripChars : List Char)
    (findTag : List Char → Option (List Char)) (m : Mail α) (rml : Rmlist) (s t : List Char) :
    Prop where
  left : replace stripChars findTag m rml s = some (own stripChars findTag (submatch m rml) s)
  right : replace stripChars findTag m rml t = some (own stripChars findTag (submatch m rml) t)
  append : replace stripChars findTag m rml (s ++ t) =
    (replace stripChars findTag m rml s).bind fun out =>
      (replace stripChars findTag m rml t).map (out ++ ·)

/-- A template is expanded part by part just when it is regular. -/
theorem compositional_iff {α : Type} {m : Mail α} {rml : Rmlist} {s : List Char} (hs : Whole s)
    (t : List Char) :
    Compositional stripChars findTag m rml s t ↔
      regular stripChars findTag (submatch m rml) true (pieces (s ++ t)) = true := by
  have hreplace : ∀ s, replace stripChars findTag m rml s =
      expand stripChars findTag (submatch m rml) true (pieces s) := replaceWith_eq
  have hown : own stripChars findTag (submatch m rml) (s ++ t) =
      own stripChars findTag (submatch m rml) s ++ own stripChars findTag (submatch m rml) t := by
    rw [own, pieces_append hs, List.flatMap_append]
    rfl
  rw [← expand_eq_own_iff, ← hreplace]
  constructor
  · intro h
    have happend := h.append
    rw [h.left, h.right, Option.bind_some, Option.map_some, ← hown] at happend
    exact happend
  · intro h
    have hregular := h
    rw [hreplace, expand_eq_own_iff, pieces_append hs] at hregular
    obtain ⟨hleft, hright⟩ := regular_append hregular
    rw [← expand_eq_own_iff, ← hreplace] at hleft hright
    refine ⟨hleft, hright, ?_⟩
    rw [hleft, hright, Option.bind_some, Option.map_some]
    show _ = some (own stripChars findTag (submatch m rml) s ++
      own stripChars findTag (submatch m rml) t)
    rw [← hown]
    exact h

end

/-- A mail of which the first group has matched a semicolon. -/
def sampleMail : Mail Unit := { data := [';'] }

/-- The groups of `sampleMail`. -/
def sampleMatch : Rmlist :=
  { valid := true, list := ⟨true, 0, 1⟩ :: ⟨true, 0, 1⟩ :: List.replicate 8 {} }

/-- `compositional_iff` for `%1` and `a%:1`. -/
theorem compositional_iff_sample :
    Compositional [';'] (fun _ => none) sampleMail sampleMatch ['%', '1'] ['a', '%', ':', '1'] ↔
      regular [';'] (fun _ => none) (submatch sampleMail sampleMatch) true
        (pieces (['%', '1'] ++ ['a', '%', ':', '1'])) = true :=
  compositional_iff (by decide) _

/-- `%:1` in front of `%1` keeps its semicolon from being stripped. -/
theorem not_compositional_sample :
    Whole ['%', ':', '1'] ∧
      ¬ Compositional [';'] (fun _ => none) sampleMail sampleMatch ['%', ':', '1'] ['%', '1'] ∧
      replace [';'] (fun _ => none) sampleMail sampleMatch ['%', ':', '1', '%', '1'] =
        some [';', ';'] :=
  ⟨by decide, fun h => absurd h.append (by decide), by decide⟩

end Fdm.Replace
