import Fdm.Wrap.Text
import Mathlib.Algebra.Group.Nat.Defs

/-!
# Line tags

`count_lines` (`mail.c`) and the part of `fetch_enqueue` (`child-fetch.c`) that makes the tags
`lines`, `body_lines` and `header_lines` of its counts.
-/

namespace Fdm

open Lib.Lines
open Wrap (Header headed header_flatten bodyOf bodyOf_append)

namespace Mail

variable {α : Type}

/-- The lines that `line_init` and `line_next` go through: an empty mail has one. -/
def iterLines (m : Mail α) : List (List Char) := if m.data = [] then [[]] else lines m.data

/-- The loop of `count_lines`; the counters are `u_int`. -/
def countLinesFrom (flag : Bool) (total body : ℕ) : List (List Char) → ℕ × ℕ
  | [] => (total, body)
  | l :: ls =>
    countLinesFrom (flag || l = ['\n']) ((total + 1) % 2 ^ 32)
      (if flag then (body + 1) % 2 ^ 32 else body) ls

/-- `count_lines`. -/
def countLines (m : Mail α) : ℕ × ℕ := countLinesFrom false 0 0 m.iterLines

end Mail

/-- The tags `lines`, `body_lines` and `header_lines`. -/
structure LineTags where
  lines : ℕ
  bodyLines : ℕ
  headerLines : ℕ
deriving DecidableEq, Repr

/-- `n - b` of two `u_int`s. -/
def uintSub (n b : ℕ) : ℕ := (n + 2 ^ 32 - b) % 2 ^ 32

/-- `MAXMAILSIZE`, which `maximum-size` cannot be above. -/
def maxMailSize : ℕ := 1 * 1024 * 1024 * 1024

variable {α : Type}

/-- `fetch_enqueue` up to these tags: the mail then, and the tags; `none` when it is too big or
empty. -/
def enqueueTags (maxSize : ℕ) (m : Mail α) : Option (Mail α × LineTags) :=
  if m.size > maxSize then none
  else
    let m := m.withBody.trimFrom
    if m.size = 0 then none
    else
      let (n, b) := m.countLines
      -- the separator is not included
      let b' := if uintSub n b ≠ 0 then (b + 1) % 2 ^ 32 else b
      some (m, { lines := n, bodyLines := b, headerLines := uintSub n b' })

/-- The tags are what the offset of the body says: the lines in front of the separator, those from
the offset on, and the separator, if there is one. -/
def Agree (m : Mail α) (t : LineTags) : Prop :=
  t.lines = (lines m.data).length ∧
    t.headerLines = (lines (m.data.take (m.body - 1))).length ∧
    t.bodyLines = (lines (m.data.drop m.body)).length ∧
    t.lines = t.headerLines + t.bodyLines + if m.body = 0 then 0 else 1

instance (m : Mail α) (t : LineTags) : Decidable (Agree m t) := inferInstanceAs (Decidable (_ ∧ _))

/-! ## Counting -/

namespace Mail

/-- Behind the separator each line counts for both. -/
theorem countLinesFrom_true {ls : List (List Char)} {total body : ℕ}
    (htotal : total + ls.length < 2 ^ 32) (hbody : body + ls.length < 2 ^ 32) :
    countLinesFrom true total body ls = (total + ls.length, body + ls.length) := by
  induction ls generalizing total body with
  | nil => rfl
  | cons l ls ih =>
    rw [List.length_cons] at htotal hbody
    rw [countLinesFrom, if_pos rfl, Bool.true_or, Nat.mod_eq_of_lt (by omega),
      Nat.mod_eq_of_lt (by omega), ih (by omega) (by omega), List.length_cons]
    simp only [Prod.mk.injEq]
    omega

/-- In front of it none counts for the body. -/
theorem countLinesFrom_false {ls : List (List Char)} (h : ∀ l ∈ ls, l ≠ ['\n']) {total body : ℕ}
    (htotal : total + ls.length < 2 ^ 32) (rest : List (List Char)) :
    countLinesFrom false total body (ls ++ rest) =
      countLinesFrom false (total + ls.length) body rest := by
  induction ls generalizing total with
  | nil => rfl
  | cons l ls ih =>
    have hl : decide (l = ['\n']) = false := decide_eq_false (h l List.mem_cons_self)
    rw [List.length_cons] at htotal
    rw [List.cons_append, countLinesFrom, if_neg Bool.false_ne_true, Bool.false_or, hl,
      Nat.mod_eq_of_lt (by omega), ih (fun x hx => h x (List.mem_cons_of_mem l hx)) (by omega),
      List.length_cons]
    congr 1
    omega

/-- What `count_lines` counts in a mail with a separator. -/
theorem countLines_append {m : Mail α} {h b : List Char} (hh : Header h)
    (hdata : m.data = h ++ '\n' :: b) (hsize : m.size < 2 ^ 32) :
    m.countLines = ((lines h).length + 1 + (lines b).length, (lines b).length) := by
  have hlines : m.iterLines = lines h ++ ['\n'] :: lines b := by
    rw [iterLines, if_neg (by simp [hdata]), hdata]
    exact hh.lines_text ('\n' :: b)
  have hlength : m.size = h.length + (b.length + 1) := by
    rw [Mail.size, hdata, List.length_append, List.length_cons]
  have hhead := length_lines_le h
  have hbody := length_lines_le b
  rw [countLines, hlines, countLinesFrom_false (fun l hl => (hh l hl).2) (by omega),
    countLinesFrom, decide_eq_true rfl, Bool.or_true, if_neg Bool.false_ne_true, Nat.zero_add,
    Nat.mod_eq_of_lt (by omega), countLinesFrom_true (by omega) (by omega), Nat.zero_add]

/-- Without one nothing counts for the body. -/
theorem countLines_of_bodyOf {m : Mail α} (hmem : ['\n'] ∉ lines m.data) (hne : m.data ≠ [])
    (hsize : m.size < 2 ^ 32) : m.countLines = ((lines m.data).length, 0) := by
  have hlength := length_lines_le m.data
  have hcount : countLinesFrom false 0 0 (lines m.data ++ []) =
      countLinesFrom false (0 + (lines m.data).length) 0 [] :=
    countLinesFrom_false (fun l hl heq => hmem (heq ▸ hl)) (by rw [Mail.size] at hsize; omega) []
  rw [List.append_nil, Nat.zero_add] at hcount
  rw [countLines, iterLines, if_neg hne, hcount, countLinesFrom]

/-! ## The offset of the body -/

theorem findBody_eq (m : Mail α) : m.findBody = bodyOf m.data := rfl

/-- A mail that begins with a `From ` line has it in its header. -/
theorem lines_of_from {h b : List Char} (hfrom : fromPrefix <+: h ++ '\n' :: b) :
    ∃ l ls, lines h = l :: ls := by
  cases hls : lines h with
  | cons l ls => exact ⟨l, ls, rfl⟩
  | nil =>
    have hflat := flatten_lines h
    rw [hls, List.flatten_nil] at hflat
    obtain ⟨rest, hrest⟩ := hfrom
    rw [← hflat] at hrest
    simp [fromPrefix] at hrest

/-- `trim_from` takes off a line of the header, and the offset with it. -/
theorem trimFrom_data {m : Mail α} (hbody : m.body = m.findBody) :
    m.trimFrom.body = m.trimFrom.findBody ∧ (m.trimFrom.findBody = 0 ↔ m.findBody = 0) ∧
      m.trimFrom.size ≤ m.size := by
  unfold trimFrom
  split_ifs with hcond hfrom
  · exact ⟨hbody, Iff.rfl, le_rfl⟩
  · rcases headed m.data with ⟨hzero, -⟩ | ⟨h, b, hh, hdata⟩
    · rw [hbody, findBody_eq, hzero] at hcond
      simp at hcond
    · have hoff := bodyOf_append hh b
      rw [← hdata, ← findBody_eq] at hoff
      rw [hdata] at hfrom
      obtain ⟨l, ls, hls⟩ := lines_of_from hfrom
      have hlines : lines m.data = l :: (ls ++ ['\n'] :: lines b) := by
        rw [hdata, hh.lines_text ('\n' :: b), hls]
        rfl
      have hflat : h = l ++ ls.flatten := by
        rw [← flatten_lines h, hls, List.flatten_cons]
      have hrest : Header ls.flatten :=
        (header_flatten fun x hx => hh x (hls ▸ List.mem_cons_of_mem l hx)).2
      have hdrop : m.data.drop l.length = ls.flatten ++ '\n' :: b := by
        rw [hdata, hflat, List.append_assoc, List.drop_left]
      have hoff' := bodyOf_append hrest b
      have hshort : (ls.flatten ++ '\n' :: b).length ≤ m.data.length := by
        rw [← hdrop, List.length_drop]
        omega
      -- the offset is less by the line that has been taken off
      rw [hlines, List.headD_cons]
      simp only [findBody_eq, hdrop, hoff', Mail.size]
      rw [← findBody_eq, hbody, hoff, hflat, List.length_append]
      exact ⟨by omega, by omega, hshort⟩
  · exact ⟨hbody, Iff.rfl, le_rfl⟩

end Mail

/-! ## The tags -/

theorem uintSub_eq {n b : ℕ} (hle : b ≤ n) (hn : n < 2 ^ 32) : uintSub n b = n - b := by
  have hshift : n + 2 ^ 32 - b = n - b + 2 ^ 32 := by omega
  rw [uintSub, hshift, Nat.add_mod_right, Nat.mod_eq_of_lt (by omega)]

/-- The tags of a mail with a separator. -/
theorem agree_of_separator {m : Mail α} {h b : List Char} (hh : Header h)
    (hdata : m.data = h ++ '\n' :: b) (hbody : m.body = m.findBody) :
    Agree m ⟨(lines h).length + 1 + (lines b).length, (lines b).length, (lines h).length⟩ := by
  have hoff : m.body = h.length + 1 := by
    rw [hbody, Mail.findBody_eq, hdata, bodyOf_append hh]
  have hlines : lines m.data = lines h ++ ['\n'] :: lines b := by
    rw [hdata]
    exact hh.lines_text ('\n' :: b)
  refine ⟨?_, ?_, ?_, ?_⟩
  · rw [hlines, List.length_append, List.length_cons]
    dsimp only
    omega
  · rw [hoff, hdata, Nat.add_sub_cancel, List.take_left]
  · rw [hoff, hdata, List.drop_length_add_append]
    rfl
  · rw [if_neg (by omega)]
    dsimp only
    omega

/-- A mail without one has all of its lines counted for the header. -/
theorem not_agree_of_body {m : Mail α} {t : LineTags} (hne : m.data ≠ []) (hbody : m.body = 0)
    (ht : t.bodyLines = 0) : ¬ Agree m t := by
  intro hagree
  have hcount := hagree.2.2.1
  rw [ht, hbody, List.drop_zero] at hcount
  have hflat := flatten_lines m.data
  rw [List.length_eq_zero_iff.mp hcount.symm] at hflat
  exact hne hflat.symm

/-- The three tags agree with the offset of the body just when the mail has a separator. -/
theorem agree_iff {maxSize : ℕ} (hmax : maxSize ≤ maxMailSize) {m m' : Mail α} {t : LineTags}
    (h : enqueueTags maxSize m = some (m', t)) :
    m'.body = m'.findBody ∧ (Agree m' t ↔ m.findBody ≠ 0) := by
  unfold enqueueTags at h
  split at h
  · cases h
  · next hsize =>
    dsimp only at h
    split at h
    · cases h
    · next hempty =>
      obtain ⟨hbody, hiff, htrim⟩ := Mail.trimFrom_data (m := m.withBody) rfl
      simp only [Option.some.injEq, Prod.mk.injEq] at h
      obtain ⟨hm', ht⟩ := h
      rw [hm'] at hbody hiff htrim hempty ht
      have hne : m'.data ≠ [] := fun hnil => hempty (by rw [Mail.size, hnil]; rfl)
      have hbound : m'.size < 2 ^ 32 := by
        have hle : m.withBody.size = m.size := rfl
        rw [hle] at htrim
        unfold maxMailSize at hmax
        omega
      have hfind : m.withBody.findBody = m.findBody := rfl
      rw [hfind] at hiff
      refine ⟨hbody, ?_⟩
      rcases headed m'.data with ⟨hzero, hmem⟩ | ⟨h, b, hh, hdata⟩
      · have hzero' : m'.body = 0 := hbody.trans hzero
        have hcount := Mail.countLines_of_bodyOf hmem hne hbound
        have htags : t.bodyLines = 0 := by
          rw [← ht, hcount]
        exact iff_of_false (not_agree_of_body hne hzero' htags) fun hsep => hsep (hiff.1 hzero)
      · have hcount := Mail.countLines_append hh hdata hbound
        have hsize' : (lines h).length + 1 + (lines b).length ≤ m'.size := by
          have hhead := length_lines_le h
          have hrest := length_lines_le b
          rw [Mail.size, hdata, List.length_append, List.length_cons]
          omega
        -- the separator is one line more than the body has
        have hdiff : uintSub ((lines h).length + 1 + (lines b).length) (lines b).length ≠ 0 := by
          rw [uintSub_eq (by omega) (by omega)]
          omega
        have htags : t =
            ⟨(lines h).length + 1 + (lines b).length, (lines b).length, (lines h).length⟩ := by
          rw [← ht, hcount]
          dsimp only
          rw [if_pos hdiff, Nat.mod_eq_of_lt (by omega), uintSub_eq (by omega) (by omega)]
          congr 1
          omega
        rw [htags]
        refine iff_of_true (agree_of_separator hh hdata hbody) fun hsep => ?_
        have hoff := bodyOf_append hh b
        rw [← hdata, ← Mail.findBody_eq, hiff.2 hsep] at hoff
        omega

/-- A header of one line, an empty line, and a last line without a newline. -/
theorem agree_iff_short :
    (enqueueTags 100 (⟨['a', '\n', '\n', 'b'], 0, .drop, none⟩ : Mail Unit)).isSome = true ∧
      ∀ m' t, enqueueTags 100 (⟨['a', '\n', '\n', 'b'], 0, .drop, none⟩ : Mail Unit) =
          some (m', t) →
        m'.body = m'.findBody ∧
          (Agree m' t ↔ Mail.findBody (⟨['a', '\n', '\n', 'b'], 0, .drop, none⟩ : Mail Unit) ≠ 0) :=
  ⟨by decide, fun _ _ h => agree_iff (by decide) h⟩

/-- Two lines and no separator: no line counts for the body, and one for the header. -/
theorem not_agree_bodyless : ∃ m' t,
    enqueueTags 100 (⟨['a', '\n', 'b', '\n'], 0, .drop, none⟩ : Mail Unit) = some (m', t) ∧
      t = ⟨2, 0, 1⟩ ∧ ¬ Agree m' t :=
  ⟨_, _, rfl, by decide, by decide⟩

end Fdm
