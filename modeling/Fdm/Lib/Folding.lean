import Fdm.Lib.Lines

/-!
# Folded text

A line that starts with a space or a tab continues the line in front of it, and the newline
between the two folds. `fields` cuts a text behind the newlines that do not fold.

* `folds` and `setFolds`: where the folding newlines are, and the text with another character in
  their place; `foldl_set_folds` puts it there offset by offset;
* `Cut`: a list of fields, and what `fields`, `folds` and `setFolds` make of the text they are.
-/

namespace Lib.Folding

open Lib.Lines

/-- A space or a tab. -/
def isBlank (c : Char) : Bool := c = ' ' || c = '\t'

/-- The text continues the line in front of it. -/
def continues (s : List Char) : Bool := s.head?.any isBlank

/-- The fields of a text, each with its newlines. -/
def fields : List Char → List (List Char)
  | [] => []
  | c :: s =>
    if c = '\n' ∧ continues s = false then ['\n'] :: fields s
    else
      match fields s with
      | [] => [[c]]
      | f :: fs => (c :: f) :: fs

/-- The offsets of the folding newlines of a text that starts at `off`. -/
def folds : ℕ → List Char → List ℕ
  | _, [] => []
  | off, c :: s =>
    if c = '\n' ∧ continues s = true then off :: folds (off + 1) s else folds (off + 1) s

/-- The text with a character in the place of each folding newline. -/
def setFolds (ch : Char) : List Char → List Char
  | [] => []
  | c :: s => (if c = '\n' ∧ continues s = true then ch else c) :: setFolds ch s

/-- Whether a text continues a line is seen from its beginning. -/
theorem continues_append {s : List Char} (hs : s ≠ []) (t : List Char) :
    continues (s ++ t) = continues s := by
  cases s with
  | nil => exact absurd rfl hs
  | cons c s => rfl

/-! ## One text -/

/-- The fields of a text, one after another, are the text. -/
theorem flatten_fields (s : List Char) : (fields s).flatten = s := by
  induction s with
  | nil => rfl
  | cons c s ih =>
    rw [fields]
    split_ifs with hc
    · rw [List.flatten_cons, ih, hc.1, List.singleton_append]
    · split
      · next hnil =>
        rw [hnil] at ih
        simp [← ih]
      · next f fs hcons =>
        rw [hcons] at ih
        rw [← ih]
        rfl

/-- Setting the folds keeps the length. -/
@[simp] theorem length_setFolds (ch : Char) (s : List Char) : (setFolds ch s).length = s.length := by
  induction s with
  | nil => rfl
  | cons c s ih => rw [setFolds, List.length_cons, List.length_cons, ih]

@[simp] theorem setFolds_newline (s : List Char) : setFolds '\n' s = s := by
  induction s with
  | nil => rfl
  | cons c s ih =>
    rw [setFolds, ih]
    split_ifs with hc
    · rw [hc.1]
    · rfl

/-- A text without folds is left alone. -/
theorem setFolds_of_folds_nil {off : ℕ} {s : List Char} (h : folds off s = []) (ch : Char) :
    setFolds ch s = s := by
  induction s generalizing off with
  | nil => rfl
  | cons c s ih =>
    rw [folds] at h
    split_ifs at h with hc
    rw [setFolds, if_neg hc, ih h]

/-- Only a text without folds is the same with another character at them. -/
theorem setFolds_eq_iff {ch : Char} (hch : ch ≠ '\n') (off : ℕ) (s : List Char) :
    setFolds ch s = s ↔ folds off s = [] := by
  refine ⟨fun h => ?_, fun h => setFolds_of_folds_nil h ch⟩
  induction s generalizing off with
  | nil => rfl
  | cons c s ih =>
    rw [setFolds, List.cons.injEq] at h
    rw [folds, if_neg, ih _ h.2]
    intro hfold
    rw [if_pos hfold] at h
    exact hch (h.1.trans hfold.1)

/-- The places of the folds move with the text. -/
theorem folds_shift (n off : ℕ) (s : List Char) : folds (off + n) s = (folds off s).map (· + n) := by
  induction s generalizing off with
  | nil => rfl
  | cons c s ih =>
    rw [folds, folds, Nat.add_right_comm, ih]
    split_ifs
    · rw [List.map_cons]
    · rfl

/-- The folding newlines, and the blanks behind them, are in the text. -/
theorem mem_folds {off w : ℕ} {s : List Char} :
    w ∈ folds off s ↔
      off ≤ w ∧ s[w - off]? = some '\n' ∧ (s[w - off + 1]?).any isBlank = true := by
  induction s generalizing off with
  | nil => simp [folds]
  | cons c s ih =>
    have hhead : (c = '\n' ∧ continues s = true) ↔
        (c :: s)[0]? = some '\n' ∧ ((c :: s)[0 + 1]?).any isBlank = true := by
      simp [continues, List.head?_eq_getElem?]
    by_cases hw : w = off
    · subst w
      rw [Nat.sub_self, ← hhead, folds]
      split_ifs with hc
      · simp [hc]
      · rw [ih]
        simp only [hc, and_false, iff_false]
        omega
    · -- behind the first character
      have hmem : w ∈ folds off (c :: s) ↔ w ∈ folds (off + 1) s := by
        rw [folds]
        split_ifs
        · rw [List.mem_cons, or_iff_right hw]
        · rfl
      rw [hmem, ih]
      rcases Nat.lt_or_ge off w with hlt | hge
      · obtain ⟨k, rfl⟩ : ∃ k, w = off + 1 + k := ⟨w - (off + 1), by omega⟩
        have hk : off + 1 + k - off = k + 1 := by omega
        rw [hk, Nat.add_sub_cancel_left, List.getElem?_cons_succ, List.getElem?_cons_succ]
        constructor <;> exact fun h => ⟨by omega, h.2⟩
      · constructor <;> exact fun h => absurd h.1 (by omega)

/-- A fold has a character behind it. -/
theorem lt_of_mem_folds {off w : ℕ} {s : List Char} (h : w ∈ folds off s) :
    w + 1 < off + s.length := by
  obtain ⟨hoff, -, hany⟩ := mem_folds.mp h
  obtain ⟨c, hc, -⟩ := (Option.any_eq_true _ _).mp hany
  have hlen := (List.getElem?_eq_some_iff.mp hc).1
  omega

/-- The offsets ascend. -/
theorem folds_pairwise (off : ℕ) (s : List Char) : (folds off s).Pairwise (· < ·) := by
  induction s generalizing off with
  | nil => exact .nil
  | cons c s ih =>
    rw [folds]
    split_ifs
    · refine .cons (fun w hw => ?_) (ih _)
      have hle := (mem_folds.mp hw).1
      omega
    · exact ih _

/-- To set the characters at the folds, one by one, is to set them all. -/
theorem foldl_set_folds (ch d : Char) (a s t : List Char) :
    (folds a.length s).foldl (fun data off => data.set off ch) (a ++ setFolds d s ++ t)
      = a ++ setFolds ch s ++ t := by
  induction s generalizing a with
  | nil => rfl
  | cons c s ih =>
    rw [folds, setFolds, setFolds]
    split_ifs with hc
    · have hset : (a ++ d :: setFolds d s ++ t).set a.length ch
          = (a ++ [ch]) ++ setFolds d s ++ t := by
        rw [List.append_assoc, List.set_append_right _ _ (Nat.le_refl _), Nat.sub_self]
        simp
      have hlen : (a ++ [ch]).length = a.length + 1 := by simp
      rw [List.foldl_cons, hset, ← hlen, ih]
      simp
    · have hlen : (a ++ [c]).length = a.length + 1 := by simp
      have happ : ∀ u, a ++ c :: u ++ t = (a ++ [c]) ++ u ++ t := by simp
      rw [happ, ← hlen, ih, happ]

/-! ## Two texts -/

section

variable {s : List Char} (hs : continues s = false)
include hs

theorem continues_append_break (a : List Char) : continues (a ++ s) = continues a := by
  cases a with
  | nil => exact hs
  | cons c a => rfl

/-- What does not continue a text has its folds behind those of the text. -/
theorem folds_append (off : ℕ) (a : List Char) :
    folds off (a ++ s) = folds off a ++ folds (off + a.length) s := by
  induction a generalizing off with
  | nil => rfl
  | cons c a ih =>
    have hoff : off + (c :: a).length = off + 1 + a.length := by
      rw [List.length_cons]
      omega
    rw [List.cons_append, folds, folds, continues_append_break hs, ih, hoff]
    split_ifs
    · rw [List.cons_append]
    · rfl

/-- The folds of two parts are set apart, where the second begins a line of its own. -/
theorem setFolds_append (ch : Char) (a : List Char) :
    setFolds ch (a ++ s) = setFolds ch a ++ setFolds ch s := by
  induction a with
  | nil => rfl
  | cons c a ih =>
    rw [List.cons_append, setFolds, setFolds, continues_append_break hs, ih, List.cons_append]

end

/-! ## One field -/

/-- A field: only its last newline does not fold. -/
inductive Field : List Char → Prop
  | newline : Field ['\n']
  | cons {c : Char} {s : List Char} (hc : c = '\n' → continues s = true) (h : Field s) :
    Field (c :: s)

namespace Field

variable {f : List Char}

/-- A field ends with a newline. -/
theorem ends (h : Field f) : ∃ b, f = b ++ ['\n'] := by
  induction h with
  | newline => exact ⟨[], rfl⟩
  | @cons c s _ _ ih =>
    obtain ⟨b, rfl⟩ := ih
    exact ⟨c :: b, rfl⟩

theorem ne_nil (h : Field f) : f ≠ [] := by
  cases h <;> simp

/-- With another character at its folds, a field is a line. -/
theorem complete_setFolds (h : Field f) {ch : Char} (hch : ch ≠ '\n') :
    Complete (setFolds ch f) := by
  induction h with
  | newline => exact ⟨[], by simp, rfl⟩
  | @cons c s hc _ ih =>
    obtain ⟨b, hb, hset⟩ := ih
    rw [setFolds, hset]
    refine ⟨(if c = '\n' ∧ continues s = true then ch else c) :: b, ?_, rfl⟩
    rw [List.mem_cons, not_or]
    refine ⟨?_, hb⟩
    split_ifs with hfold
    · exact hch.symm
    · exact fun hnl => hfold ⟨hnl.symm, hc hnl.symm⟩

/-- A field has no empty line when it is set out as one line that is not empty. -/
theorem setFolds_ne_newline (h : Field f) (hne : ['\n'] ∉ lines f) (ch : Char) :
    setFolds ch f ≠ ['\n'] := by
  intro hset
  have hlen : f.length = 1 := by
    rw [← length_setFolds ch, hset]
    rfl
  obtain ⟨b, rfl⟩ := h.ends
  obtain rfl : b = [] := by
    rw [List.length_append, List.length_singleton] at hlen
    exact List.eq_nil_of_length_eq_zero (by omega)
  exact hne (by decide)

end Field

/-! ## The fields of a text -/

/-- A list of fields that do not continue each other. -/
structure Cut (fs : List (List Char)) : Prop where
  field : ∀ f ∈ fs, Field f
  breaks : ∀ f ∈ fs.tail, continues f = false

/-- The first field begins as the text does. -/
theorem head?_of_fields {s f : List Char} {fs : List (List Char)} (h : fields s = f :: fs) :
    continues f = continues s := by
  have hflat := flatten_fields s
  rw [h, List.flatten_cons] at hflat
  rw [← hflat]
  cases f with
  | nil =>
    exfalso
    cases s with
    | nil => cases h
    | cons c s =>
      rw [fields] at h
      split_ifs at h
      · cases h
      · split at h <;> cases h
  | cons c f => rfl

/-- The fields of a text that ends with a newline. -/
theorem cut_fields {s : List Char} (h : s ≠ [] → s.getLast? = some '\n') : Cut (fields s) := by
  induction s with
  | nil => exact ⟨by simp [fields], by simp [fields]⟩
  | cons c s ih =>
    have hs : s ≠ [] → s.getLast? = some '\n' := by
      intro hne
      have hlast := h (List.cons_ne_nil c s)
      rwa [List.getLast?_cons, List.getLast?_eq_some_getLast hne, Option.getD_some,
        ← List.getLast?_eq_some_getLast hne] at hlast
    have hcut := ih hs
    rw [fields]
    split_ifs with hc
    · -- a newline that does not fold is a field of its own
      refine ⟨fun f hf => ?_, fun f hf => ?_⟩
      · rcases List.mem_cons.mp hf with rfl | hf
        · exact .newline
        · exact hcut.field f hf
      · rw [List.tail_cons] at hf
        cases hfs : fields s with
        | nil => rw [hfs] at hf; cases hf
        | cons g gs =>
          rw [hfs] at hf hcut
          rcases List.mem_cons.mp hf with rfl | hf
          · rw [head?_of_fields hfs, hc.2]
          · exact hcut.breaks f hf
    · split
      · next hnil =>
        have hflat := flatten_fields s
        rw [hnil] at hflat
        obtain rfl : s = [] := hflat.symm
        have hlast := h (List.cons_ne_nil c [])
        exact absurd ⟨by simpa using hlast, rfl⟩ hc
      · next f fs hcons =>
        rw [hcons] at hcut
        refine ⟨fun g hg => ?_, fun g hg => hcut.breaks g hg⟩
        rcases List.mem_cons.mp hg with rfl | hg
        · refine .cons (fun hnl => ?_) (hcut.field f List.mem_cons_self)
          rw [head?_of_fields hcons]
          by_contra hbreak
          exact hc ⟨hnl, by simpa using hbreak⟩
        · exact hcut.field g (List.mem_cons_of_mem f hg)

namespace Cut

variable {fs : List (List Char)}

/-- Some of the fields, in their order. -/
theorem sublist {gs : List (List Char)} (h : Cut fs) (hsub : gs.Sublist fs) : Cut gs :=
  ⟨fun f hf => h.field f (hsub.subset hf), fun f hf => h.breaks f (hsub.tail.subset hf)⟩

/-- Fields without the first one. -/
theorem tail {f : List Char} (h : Cut (f :: fs)) : Cut fs := h.sublist (List.sublist_cons_self f fs)

/-- The fields behind others do not continue them. -/
theorem continues_flatten {f : List Char} (h : Cut (f :: fs)) : continues fs.flatten = false := by
  cases fs with
  | nil => rfl
  | cons g gs =>
    have hg : Field g := h.field g (by simp)
    rw [List.flatten_cons, continues_append hg.ne_nil]
    exact h.breaks g (by simp)

/-- There are at most as many fields as characters. -/
theorem length_le (h : Cut fs) : fs.length ≤ fs.flatten.length := by
  induction fs with
  | nil => exact Nat.le_refl 0
  | cons f fs ih =>
    have hf : 0 < f.length := List.length_pos_iff.mpr (h.field f List.mem_cons_self).ne_nil
    have hrest := ih h.tail
    rw [List.flatten_cons, List.length_append, List.length_cons]
    omega

/-- The folds of a text are set field by field. -/
theorem setFolds_flatten (h : Cut fs) (ch : Char) :
    setFolds ch fs.flatten = (fs.map (setFolds ch)).flatten := by
  induction fs with
  | nil => rfl
  | cons f fs ih =>
    rw [List.flatten_cons, setFolds_append h.continues_flatten, ih h.tail]
    rfl

/-- The folds of the fields in front, and behind them those of the others. -/
theorem folds_flatten {gs : List (List Char)} (h : Cut (fs ++ gs)) (off : ℕ) :
    folds off (fs ++ gs).flatten
      = folds off fs.flatten ++ folds (off + fs.flatten.length) gs.flatten := by
  rw [List.flatten_append]
  cases fs with
  | nil => rfl
  | cons f fs =>
    refine folds_append ?_ _ _
    rw [List.cons_append] at h
    have hfgs : Cut (f :: gs) := h.sublist ((List.sublist_append_right fs gs).cons_cons f)
    exact hfgs.continues_flatten

/-- A text has no fold when none of its fields has one. -/
theorem folds_eq_nil (h : Cut fs) (off : ℕ) :
    folds off fs.flatten = [] ↔ ∀ f ∈ fs, folds 0 f = [] := by
  induction fs generalizing off with
  | nil => simp [folds]
  | cons f fs ih =>
    have hshift := folds_shift off 0 f
    rw [Nat.zero_add] at hshift
    rw [List.flatten_cons, folds_append h.continues_flatten, List.append_eq_nil_iff, ih h.tail,
      hshift, List.map_eq_nil_iff, List.forall_mem_cons]

/-- A text made of fields is empty, or ends with a newline. -/
theorem ends_flatten (h : Cut fs) : fs = [] ∨ ∃ b, fs.flatten = b ++ ['\n'] := by
  rcases List.eq_nil_or_concat fs with hnil | ⟨gs, f, rfl⟩
  · exact Or.inl hnil
  · obtain ⟨b, rfl⟩ := (h.field f (by simp)).ends
    exact Or.inr ⟨gs.flatten ++ b, by simp⟩

/-- With another character at the folds, each field is a line. -/
theorem lines_setFolds (h : Cut fs) {ch : Char} (hch : ch ≠ '\n') (t : List Char) :
    lines ((fs.map (setFolds ch)).flatten ++ t) = fs.map (setFolds ch) ++ lines t := by
  have hcomplete : ∀ l ∈ fs.map (setFolds ch), Complete l := by
    intro l hl
    obtain ⟨f, hf, rfl⟩ := List.mem_map.mp hl
    exact (h.field f hf).complete_setFolds hch
  have hruled := Ruled.complete_append hcomplete (ruled_lines t)
  have hlines := hruled.lines_flatten
  rwa [List.flatten_append, flatten_lines] at hlines

end Cut

end Lib.Folding
