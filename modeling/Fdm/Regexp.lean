import Fdm.Replace
import Mathlib.Data.Int.Notation

/-!
# Matching by regular expression

`re_block` of `re.c` and `match_regexp_match`, and what the templates that are expanded after
a match see of its groups. The regular expressions themselves are the C library's: `regexec`
with `REG_STARTEND` is a parameter.
-/

namespace Fdm.Regexp

open Replace

/-- What a match function returns. -/
inductive MatchResult
  | matchFalse
  | matchTrue
  | matchError
  | matchParent
deriving DecidableEq, Repr

/-- `regmatch_t`. -/
structure Regmatch where
  so : ℤ := 0
  eo : ℤ := 0
deriving DecidableEq, Repr

/-- What `regexec` returns: zero, `REG_NOMATCH` or another error. -/
inductive Ret
  | zero
  | noMatch
  | failed
deriving DecidableEq, Repr

/-- A group that took no part in a match. -/
def unused : Regmatch := ⟨-1, -1⟩

variable {ρ α : Type}

/-- `struct re`, with a `regex_t` of type `ρ`. -/
structure Re (ρ : Type) where
  str : List Char
  re : ρ

/-- `enum area`. -/
inductive Area
  | headers
  | body
  | any
deriving DecidableEq, Repr

/-- `struct match_regexp_data`. -/
structure MatchRegexpData (ρ : Type) where
  re : Re ρ
  area : Area

/-- `regexec` with `REG_STARTEND`: the bytes to search, and `pmatch` before and after. -/
abbrev Regexec (ρ : Type) : Type := ρ → List Char → List Regmatch → Ret × List Regmatch

/-! ## The functions -/

/-- `pm` as `re_block` sets it up. -/
def startPm (len : ℕ) : List Regmatch := ⟨0, len⟩ :: List.replicate (npmatch - 1) {}

/-- The loop of `re_block` over `pm`. -/
def fill : List Regmatch → List Rm
  | [] => []
  | pm :: pms =>
    if pm.eo ≤ pm.so then List.replicate (pms.length + 1) {}
    else { valid := true, so := pm.so.toNat, eo := pm.eo.toNat } :: fill pms

/-- `re_block`; `none` is its -1. -/
def reBlock (regexec : Regexec ρ) (re : Re ρ) (buf : List Char) : Option Bool × Rmlist :=
  if re.str = [] then (some (buf.isEmpty), {})
  else
    let (res, pm) := regexec re.re buf (startPm buf.length)
    match res with
    | .failed => (none, {})
    | res => (some (res = .zero), { valid := true, list := fill pm })

/-- `so` and `eo`: the part of the mail that is searched. -/
def bounds (area : Area) (m : Mail α) : ℕ × ℕ :=
  match area with
  | .headers => (0, m.body)
  | .body => (m.body, m.size)
  | .any => (0, m.size)

/-- The bytes that are searched. -/
def searched (area : Area) (m : Mail α) : List Char :=
  slice m.data (bounds area m).1 (bounds area m).2

/-- `match_regexp_match`: what it returns, and `m->rml`. -/
def matchRegexp (regexec : Regexec ρ) (data : MatchRegexpData ρ) (m : Mail α) (rml : Rmlist) :
    MatchResult × Rmlist :=
  if data.area = .headers ∧ m.body = 0 then (.matchFalse, rml)
  else
    match reBlock regexec data.re (searched data.area m) with
    | (none, rml) => (.matchError, rml)
    | (some false, rml) => (.matchFalse, rml)
    | (some true, rml) => (.matchTrue, rml)

/-! ## What templates should see -/

/-- What `regexec` is known for: on a match each group is unused or lies in the bytes that
were searched, and without one the offsets are left alone or marked as unused. -/
structure Posix (regexec : Regexec ρ) : Prop where
  length (re : ρ) (buf : List Char) (pm : List Regmatch) :
    (regexec re buf pm).2.length = pm.length
  found (re : ρ) (buf : List Char) (pm : List Regmatch) : (regexec re buf pm).1 = .zero →
    ∀ g ∈ (regexec re buf pm).2, g = unused ∨ 0 ≤ g.so ∧ g.so ≤ g.eo ∧ g.eo ≤ buf.length
  unmatched (re : ρ) (buf : List Char) (pm : List Regmatch) : (regexec re buf pm).1 = .noMatch →
    ∀ i : ℕ, (regexec re buf pm).2[i]? = pm[i]? ∨ (regexec re buf pm).2[i]? = some unused

/-- The text of a group; `none` when it took no part in the match or matched nothing. -/
def groupAt (buf : List Char) (pm : List Regmatch) (i : ℕ) : Option (List Char) :=
  (pm[i]?).bind fun g => if g.so < g.eo then some (slice buf g.so.toNat g.eo.toNat) else none

/-- The groups of a regular expression in the bytes that were searched. -/
def captures (regexec : Regexec ρ) (re : Re ρ) (buf : List Char) (ch : Char) :
    Option (List Char) :=
  if re.str = [] then none
  else groupAt buf (regexec re.re buf (startPm buf.length)).2 (digitOf ch)

/-- Every template expanded after `match_regexp_match` sees the groups of a match it found,
and no groups when there was none. -/
structure Survives (regexec : Regexec ρ) (stripChars : List Char)
    (findTag : List Char → Option (List Char)) (data : MatchRegexpData ρ) (m : Mail α)
    (rml : Rmlist) : Prop where
  matched : (matchRegexp regexec data m rml).1 = .matchTrue → ∀ src,
    replace stripChars findTag m (matchRegexp regexec data m rml).2 src =
      replaceWith stripChars findTag (captures regexec data.re (searched data.area m)) src
  failed : (matchRegexp regexec data m rml).1 = .matchFalse → ∀ src,
    replace stripChars findTag m (matchRegexp regexec data m rml).2 src =
      replaceWith stripChars findTag (fun _ => none) src

/-! ## When they do -/

/-- No group that is unused or empty is followed by one that is not. -/
def NoGap (pm : List Regmatch) : Prop := pm.Pairwise fun g g' => g.eo ≤ g.so → g'.eo ≤ g'.so

/-- The mail has the text of each group at the offset it has in the bytes that were searched. -/
def SameText (m : Mail α) (buf : List Char) (pm : List Regmatch) : Prop :=
  ∀ g ∈ pm, g.so < g.eo →
    slice m.data g.so.toNat g.eo.toNat = slice buf g.so.toNat g.eo.toNat

/-- Nothing is left of an earlier match. -/
def Cleared (rml : Rmlist) : Prop := rml.valid = false ∨ ∀ rm ∈ rml.list, rm.valid = false

/-- What `regexec` gives for the bytes that are searched does not mislead `re_block`. -/
def Harmless (regexec : Regexec ρ) (re : Re ρ) (m : Mail α) (buf : List Char) : Prop :=
  let (res, pm) := regexec re.re buf (startPm buf.length)
  match res with
  | .zero => NoGap pm ∧ SameText m buf pm
  | .noMatch => buf = [] ∨ pm.head? = some unused
  | .failed => True

/-- When the groups survive. -/
def Sound (regexec : Regexec ρ) (data : MatchRegexpData ρ) (m : Mail α) (rml : Rmlist) : Prop :=
  if data.area = .headers ∧ m.body = 0 then Cleared rml
  else data.re.str = [] ∨ Harmless regexec data.re m (searched data.area m)

/-- An earlier match of the mail: what `re_block` leaves in `m->rml`. -/
structure Held (m : Mail α) (rml : Rmlist) : Prop where
  length : rml.list.length = npmatch
  inside : ∀ rm ∈ rml.list, rm.valid → rm.so < rm.eo ∧ rm.eo ≤ m.size

/-! ## Digits -/

/-- A digit is the number of a group. -/
theorem digitOf_lt {ch : Char} (hd : ch.isDigit) : digitOf ch < npmatch := by
  simp only [Char.isDigit, Bool.and_eq_true, decide_eq_true_eq, ge_iff_le] at hd
  have h9 : ch.toNat ≤ 57 := hd.2
  show ch.toNat - 48 < 10
  omega

/-- Each group has its digit. -/
theorem exists_digit {i : ℕ} (hi : i < npmatch) : ∃ ch : Char, ch.isDigit ∧ digitOf ch = i := by
  refine ⟨Char.ofNat (48 + i), ?_⟩
  revert i
  decide

theorem forall_digit {P : ℕ → Prop} :
    (∀ ch : Char, ch.isDigit → P (digitOf ch)) ↔ ∀ i < npmatch, P i := by
  constructor
  · intro h i hi
    obtain ⟨ch, hd, rfl⟩ := exists_digit hi
    exact h ch hd
  · exact fun h ch hd => h _ (digitOf_lt hd)

/-! ## The list of groups -/

/-- What `submatch` makes of an entry. -/
def shown (m : Mail α) (list : List Rm) (i : ℕ) : Option (List Char) :=
  (list[i]?).bind fun rm => if rm.valid then some (slice m.data rm.so rm.eo) else none

/-- A digit stands for what its group shows. -/
theorem submatch_eq (m : Mail α) (list : List Rm) (ch : Char) :
    submatch m ⟨true, list⟩ ch = shown m list (digitOf ch) := by
  simp [submatch, shown]

@[simp] theorem length_fill (pm : List Regmatch) : (fill pm).length = pm.length := by
  induction pm with
  | nil => rfl
  | cons g pm ih =>
    unfold fill
    split <;> simp [ih]

/-- Behind the first group that is unused or empty there is nothing. -/
theorem shown_fill_empty (m : Mail α) {g : Regmatch} (hg : g.eo ≤ g.so) (pm : List Regmatch)
    (i : ℕ) : shown m (fill (g :: pm)) i = none := by
  rw [fill, if_pos hg, shown]
  by_cases hi : i < pm.length + 1
  · simp [hi]
  · simp [hi]

/-- The first group, when it has matched something. -/
theorem shown_fill_zero (m : Mail α) {g : Regmatch} (hg : g.so < g.eo) (pm : List Regmatch) :
    shown m (fill (g :: pm)) 0 = some (slice m.data g.so.toNat g.eo.toNat) := by
  rw [fill, if_neg (by omega)]
  simp [shown]

/-- The groups behind it. -/
theorem shown_fill_succ (m : Mail α) {g : Regmatch} (hg : g.so < g.eo) (pm : List Regmatch)
    (i : ℕ) : shown m (fill (g :: pm)) (i + 1) = shown m (fill pm) i := by
  rw [fill, if_neg (by omega)]
  simp [shown]

theorem groupAt_cons_succ (buf : List Char) (g : Regmatch) (pm : List Regmatch) (i : ℕ) :
    groupAt buf (g :: pm) (i + 1) = groupAt buf pm i := by
  simp [groupAt]

/-- No group has matched anything. -/
theorem groupAt_eq_none (buf : List Char) {pm : List Regmatch} :
    (∀ i < pm.length, groupAt buf pm i = none) ↔ ∀ g ∈ pm, g.eo ≤ g.so := by
  constructor
  · intro h g hg
    obtain ⟨i, hi, rfl⟩ := List.mem_iff_getElem.mp hg
    have hn := h i hi
    simp only [groupAt, List.getElem?_eq_getElem hi, Option.bind_some] at hn
    split at hn
    · cases hn
    · omega
  · intro h i hi
    have hg := h pm[i] (List.getElem_mem hi)
    simp only [groupAt, List.getElem?_eq_getElem hi, Option.bind_some]
    rw [if_neg (by omega)]

/-- The loop keeps every group exactly when none is behind a gap, and the mail has its text. -/
theorem shown_fill_iff (m : Mail α) (buf : List Char) (pm : List Regmatch) :
    (∀ i < pm.length, shown m (fill pm) i = groupAt buf pm i) ↔ NoGap pm ∧ SameText m buf pm := by
  induction pm with
  | nil => simp [NoGap, SameText]
  | cons g pm ih =>
    by_cases hg : g.eo ≤ g.so
    · -- the loop stops here
      have hall : (∀ i < (g :: pm).length, shown m (fill (g :: pm)) i = groupAt buf (g :: pm) i) ↔
          ∀ g' ∈ g :: pm, g'.eo ≤ g'.so := by
        rw [← groupAt_eq_none buf]
        simp only [shown_fill_empty m hg, eq_comm]
      rw [hall]
      constructor
      · intro h
        refine ⟨?_, fun g' hmem hlt => absurd (h g' hmem) (by omega)⟩
        exact List.pairwise_of_forall_mem_list fun _ _ g' hmem _ => h g' hmem
      · rintro ⟨hgap, -⟩ g' hmem
        rcases List.mem_cons.mp hmem with rfl | hmem
        · exact hg
        · exact List.rel_of_pairwise_cons hgap hmem hg
    · have hlt : g.so < g.eo := by omega
      have hsplit : (∀ i < (g :: pm).length,
          shown m (fill (g :: pm)) i = groupAt buf (g :: pm) i) ↔
          slice m.data g.so.toNat g.eo.toNat = slice buf g.so.toNat g.eo.toNat ∧
            ∀ i < pm.length, shown m (fill pm) i = groupAt buf pm i := by
        constructor
        · intro h
          refine ⟨?_, fun i hi => ?_⟩
          · have h0 := h 0 (by simp)
            rw [shown_fill_zero m hlt] at h0
            simpa [groupAt, hlt] using h0
          · have hs := h (i + 1) (by simpa using hi)
            rwa [shown_fill_succ m hlt, groupAt_cons_succ] at hs
        · rintro ⟨h0, h⟩ i hi
          cases i with
          | zero => rw [shown_fill_zero m hlt]; simp [groupAt, hlt, h0]
          | succ i =>
            rw [shown_fill_succ m hlt, groupAt_cons_succ]
            exact h i (by simpa using hi)
      rw [hsplit, ih]
      simp only [NoGap, SameText, List.pairwise_cons, List.forall_mem_cons]
      constructor
      · rintro ⟨h0, hgap, htext⟩
        exact ⟨⟨fun _ _ hle => absurd hle hg, hgap⟩, fun _ => h0, htext⟩
      · rintro ⟨⟨-, hgap⟩, h0, htext⟩
        exact ⟨h0 hlt, hgap, htext⟩

/-! ## Offsets -/

/-- The groups that are not empty lie in so many bytes. -/
def InRange (n : ℕ) (pm : List Regmatch) : Prop :=
  ∀ g ∈ pm, g.so < g.eo → 0 ≤ g.so ∧ g.eo ≤ n

/-- A stretch inside of the text is not empty. -/
theorem slice_ne_nil {s : List Char} {so eo : ℕ} (hlt : so < eo) (hle : eo ≤ s.length) :
    slice s so eo ≠ [] := by
  intro h
  have hlen := congrArg List.length h
  simp only [slice, List.length_take, List.length_drop, List.length_nil] at hlen
  omega

/-- What is searched is a part of the mail. -/
theorem length_searched (area : Area) (m : Mail α) : (searched area m).length ≤ m.size := by
  simp only [searched, slice, Mail.size, List.length_take, List.length_drop]
  omega

/-- A group that has matched shows something. -/
theorem groupAt_ne {buf : List Char} {pm : List Regmatch} (h : InRange buf.length pm) (i : ℕ) :
    groupAt buf pm i ≠ some [] := by
  intro hc
  obtain ⟨g, hg, hs⟩ := Option.bind_eq_some_iff.mp hc
  have hr := h g (List.mem_of_getElem? hg)
  split at hs
  · rename_i hlt
    exact slice_ne_nil (by omega) (by have := (hr hlt).2; omega) (Option.some.inj hs)
  · cases hs

/-- A place that is valid is that of a group that has matched something. -/
theorem mem_fill {pm : List Regmatch} {rm : Rm} (hmem : rm ∈ fill pm) (hv : rm.valid = true) :
    ∃ g ∈ pm, g.so < g.eo ∧ rm.so = g.so.toNat ∧ rm.eo = g.eo.toNat := by
  induction pm with
  | nil => cases hmem
  | cons g pm ih =>
    unfold fill at hmem
    split at hmem
    · rw [List.eq_of_mem_replicate hmem] at hv
      cases hv
    · rcases List.mem_cons.mp hmem with rfl | hmem
      · exact ⟨g, List.mem_cons_self, by omega, rfl, rfl⟩
      · obtain ⟨g', hmem', h⟩ := ih hmem
        exact ⟨g', List.mem_cons_of_mem _ hmem', h⟩

/-- Places in what is searched are places in the mail. -/
theorem InRange.held {m : Mail α} {n : ℕ} {pm : List Regmatch} (h : InRange n pm)
    (hn : n ≤ m.size) (hlen : pm.length = npmatch) (valid : Bool) : Held m ⟨valid, fill pm⟩ where
  length := by simpa using hlen
  inside rm hmem hv := by
    obtain ⟨g, hg, hlt, hso, heo⟩ := mem_fill hmem hv
    have hr := h g hg hlt
    omega

/-- Places in the mail never show the empty string. -/
theorem Held.submatch_ne {m : Mail α} {rml : Rmlist} (h : Held m rml) (ch : Char) :
    submatch m rml ch ≠ some [] := by
  unfold submatch
  intro hc
  split at hc
  · obtain ⟨rm, hrm, hs⟩ := Option.bind_eq_some_iff.mp hc
    split at hs
    · rename_i hv
      have hr := h.inside rm (List.mem_of_getElem? hrm) hv
      exact slice_ne_nil hr.1 hr.2 (Option.some.inj hs)
    · cases hs
  · cases hc

theorem held_init (m : Mail α) : Held m {} where
  length := rfl
  inside rm hmem hv := by
    rw [List.eq_of_mem_replicate hmem] at hv
    cases hv

section

variable {regexec : Regexec ρ} (hre : Posix regexec)
include hre

/-- `regexec` gives as many places as it is asked for. -/
theorem Posix.length_startPm (re : ρ) (buf : List Char) :
    (regexec re buf (startPm buf.length)).2.length = npmatch := by
  rw [hre.length]
  rfl

/-- Whatever `regexec` returns but an error, what it leaves in `pm` is in range. -/
theorem Posix.inRange {re : ρ} {buf : List Char}
    (h : (regexec re buf (startPm buf.length)).1 ≠ .failed) :
    InRange buf.length (regexec re buf (startPm buf.length)).2 := by
  intro g hg hlt
  cases hret : (regexec re buf (startPm buf.length)).1 with
  | failed => exact absurd hret h
  | zero =>
    rcases hre.found re buf _ hret g hg with rfl | hr
    · cases hlt
    · omega
  | noMatch =>
    obtain ⟨i, hi⟩ := List.getElem?_of_mem hg
    rcases hre.unmatched re buf _ hret i with hi' | hi'
    · -- left alone: only the first entry is not empty
      rw [hi'] at hi
      cases i with
      | zero =>
        cases hi
        simp
      | succ i =>
        have hmem : g ∈ List.replicate (npmatch - 1) ({} : Regmatch) := List.mem_of_getElem? hi
        rw [List.eq_of_mem_replicate hmem] at hlt
        cases hlt
    · rw [hi'] at hi
      cases hi
      cases hlt

/-- `re_block` gives places in the mail. -/
theorem reBlock_held (re : Re ρ) (m : Mail α) {buf : List Char} (hbuf : buf.length ≤ m.size) :
    Held m (reBlock regexec re buf).2 := by
  unfold reBlock
  split
  · exact held_init m
  · dsimp only
    split
    · exact held_init m
    · rename_i hne
      exact (hre.inRange hne).held hbuf (hre.length_startPm _ _) _

omit hre in
/-- The places are left alone where there is no header to search. -/
theorem matchRegexp_snd (data : MatchRegexpData ρ) (m : Mail α) (rml : Rmlist) :
    (matchRegexp regexec data m rml).2 =
      if data.area = .headers ∧ m.body = 0 then rml
      else (reBlock regexec data.re (searched data.area m)).2 := by
  unfold matchRegexp
  split
  · rfl
  · split <;> simp_all

/-- What `match_regexp_match` leaves in `m->rml` belongs to the mail. -/
theorem matchRegexp_held (data : MatchRegexpData ρ) {m : Mail α} {rml : Rmlist}
    (h : Held m rml) : Held m (matchRegexp regexec data m rml).2 := by
  rw [matchRegexp_snd]
  split
  · exact h
  · exact reBlock_held hre data.re m (length_searched _ m)

/-- No capture is the empty string. -/
theorem captures_ne (re : Re ρ) (buf : List Char)
    (h : (regexec re.re buf (startPm buf.length)).1 ≠ .failed) (ch : Char) :
    captures regexec re buf ch ≠ some [] := by
  unfold captures
  split
  · simp
  · exact groupAt_ne (hre.inRange h) _

end

/-! ## The groups after a match -/

section

variable {regexec : Regexec ρ} {data : MatchRegexpData ρ} {m : Mail α} {rml : Rmlist}
  {stripChars : List Char} {findTag : List Char → Option (List Char)}

/-- An empty regular expression has no groups. -/
theorem survives_empty (h : ¬ (data.area = .headers ∧ m.body = 0)) (hstr : data.re.str = []) :
    Survives regexec stripChars findTag data m rml := by
  have hrml : (matchRegexp regexec data m rml).2 = {} := by
    rw [matchRegexp_snd, if_neg h, reBlock, if_pos hstr]
  have hsub : ∀ ch, submatch m ({} : Rmlist) ch = none := fun _ => rfl
  constructor
  · intro _ src
    rw [hrml]
    exact replaceWith_congr (fun ch _ => by rw [hsub, captures, if_pos hstr]) src
  · intro _ src
    rw [hrml]
    exact replaceWith_congr (fun ch _ => hsub ch) src

/-- The headers of a mail without a body are not searched, and what an earlier match left
stays. -/
theorem survives_unsearched (h : data.area = .headers ∧ m.body = 0) (hrml : Held m rml) :
    Survives regexec stripChars findTag data m rml ↔ Cleared rml := by
  have hm : matchRegexp regexec data m rml = (.matchFalse, rml) := by rw [matchRegexp, if_pos h]
  have hiff : Survives regexec stripChars findTag data m rml ↔
      ∀ ch : Char, ch.isDigit → submatch m rml ch = none := by
    rw [← replaceWith_eq_iff stripChars findTag hrml.submatch_ne (by simp)]
    constructor
    · intro hs src
      have := hs.failed (by rw [hm]) src
      rwa [hm] at this
    · intro hs
      refine ⟨fun ht => ?_, fun _ src => ?_⟩
      · rw [hm] at ht
        cases ht
      · rw [hm]
        exact hs src
  rw [hiff, Cleared]
  obtain ⟨valid, list⟩ := rml
  cases valid with
  | false => simp [submatch]
  | true =>
    simp only [submatch_eq m, Bool.true_eq_false, false_or]
    rw [forall_digit (P := fun i => shown m list i = none), ← hrml.length]
    simp only [List.forall_mem_iff_getElem, shown]
    refine forall₂_congr fun i hi => ?_
    simp [List.getElem?_eq_getElem hi]

/-- What a search that did not fail returns, and the groups it keeps. -/
theorem matchRegexp_searched (rml : Rmlist) (h : ¬ (data.area = .headers ∧ m.body = 0))
    (hstr : data.re.str ≠ []) {pm : List Regmatch} {ret : Ret} (hne : ret ≠ .failed)
    (hret : regexec data.re.re (searched data.area m) (startPm (searched data.area m).length) =
      (ret, pm)) :
    matchRegexp regexec data m rml =
      (if ret = .zero then .matchTrue else .matchFalse, ⟨true, fill pm⟩) := by
  rw [matchRegexp, if_neg h, reBlock, if_neg hstr, hret]
  cases ret with
  | zero => rfl
  | noMatch => rfl
  | failed => exact absurd rfl hne

variable (hre : Posix regexec)
include hre

/-- A match survives if the places are shown one by one and show the text that was searched. -/
theorem survives_matched (h : ¬ (data.area = .headers ∧ m.body = 0)) (hstr : data.re.str ≠ [])
    {pm : List Regmatch}
    (hret : regexec data.re.re (searched data.area m) (startPm (searched data.area m).length) =
      (.zero, pm)) (hrml : Held m rml) :
    Survives regexec stripChars findTag data m rml ↔
      NoGap pm ∧ SameText m (searched data.area m) pm := by
  have hm := matchRegexp_searched rml h hstr (by simp) hret
  have hheld := matchRegexp_held hre data hrml
  have hcap := captures_ne hre data.re (searched data.area m) (by rw [hret]; simp)
  have hlen := hre.length_startPm data.re.re (searched data.area m)
  rw [hret] at hlen
  rw [hm] at hheld
  have hiff : Survives regexec stripChars findTag data m rml ↔ ∀ ch : Char, ch.isDigit →
      submatch m ⟨true, fill pm⟩ ch = captures regexec data.re (searched data.area m) ch := by
    rw [← replaceWith_eq_iff stripChars findTag hheld.submatch_ne hcap]
    constructor
    · intro hs src
      have := hs.matched (by rw [hm]; rfl) src
      rwa [hm] at this
    · intro hs
      refine ⟨fun _ src => ?_, fun hf => ?_⟩
      · rw [hm]
        exact hs src
      · rw [hm] at hf
        cases hf
  have hgroups : ∀ ch, captures regexec data.re (searched data.area m) ch =
      groupAt (searched data.area m) pm (digitOf ch) := by
    intro ch
    rw [captures, if_neg hstr, hret]
  simp only [hiff, hgroups, submatch_eq m]
  rw [forall_digit (P := fun i => shown m (fill pm) i = groupAt (searched data.area m) pm i),
    ← hlen]
  exact shown_fill_iff m _ pm

/-- A search that found nothing leaves the whole of what was searched as its group 0. -/
theorem survives_failed (h : ¬ (data.area = .headers ∧ m.body = 0)) (hstr : data.re.str ≠ [])
    {pm : List Regmatch}
    (hret : regexec data.re.re (searched data.area m) (startPm (searched data.area m).length) =
      (.noMatch, pm)) (hrml : Held m rml) :
    Survives regexec stripChars findTag data m rml ↔
      searched data.area m = [] ∨ pm.head? = some unused := by
  have hm := matchRegexp_searched rml h hstr (by simp) hret
  have hheld := matchRegexp_held hre data hrml
  rw [hm] at hheld
  have hiff : Survives regexec stripChars findTag data m rml ↔ ∀ ch : Char, ch.isDigit →
      submatch m ⟨true, fill pm⟩ ch = none := by
    rw [← replaceWith_eq_iff stripChars findTag hheld.submatch_ne (by simp)]
    constructor
    · intro hs src
      have := hs.failed (by rw [hm]; rfl) src
      rwa [hm] at this
    · intro hs
      refine ⟨fun ht => ?_, fun _ src => ?_⟩
      · rw [hm] at ht
        cases ht
      · rw [hm]
        exact hs src
  simp only [hiff, submatch_eq m]
  rw [forall_digit (P := fun i => shown m (fill pm) i = none)]
  have hfirst := hre.unmatched data.re.re (searched data.area m) _ (by rw [hret]) 0
  rw [hret] at hfirst
  cases pm with
  | nil =>
    have := hre.length_startPm data.re.re (searched data.area m)
    rw [hret] at this
    cases this
  | cons g pm =>
    simp only [startPm, List.getElem?_cons_zero, Option.some.injEq, List.head?_cons] at hfirst ⊢
    rcases hfirst with rfl | rfl
    · by_cases hempty : searched data.area m = []
      · simp only [hempty, true_or, iff_true]
        exact fun i _ => shown_fill_empty m (by simp) pm i
      · have hpos : 0 < (searched data.area m).length := List.length_pos_iff.mpr hempty
        have hzero := shown_fill_zero m (g := ⟨0, (searched data.area m).length⟩)
          (by simpa using hpos) pm
        constructor
        · intro hall
          rw [hall 0 (by decide)] at hzero
          cases hzero
        · rintro (hc | hc)
          · exact absurd hc hempty
          · cases hc
    · simp only [or_true, iff_true]
      exact fun i _ => shown_fill_empty m (by decide) pm i

/-- The groups of a match survive into the templates exactly when the match is not one of
those that `re_block` or `submatch` get wrong. -/
theorem captures_survive_iff (hrml : Held m rml) :
    Survives regexec stripChars findTag data m rml ↔ Sound regexec data m rml := by
  by_cases h : data.area = .headers ∧ m.body = 0
  · rw [survives_unsearched h hrml, Sound, if_pos h]
  rw [Sound, if_neg h]
  by_cases hstr : data.re.str = []
  · simp only [hstr, true_or, iff_true]
    exact survives_empty h hstr
  rw [Harmless]
  rcases hret : regexec data.re.re (searched data.area m)
    (startPm (searched data.area m).length) with ⟨ret, pm⟩
  simp only [hstr, false_or]
  cases ret with
  | zero => exact survives_matched hre h hstr hret hrml
  | noMatch => exact survives_failed hre h hstr hret hrml
  | failed =>
    have hm : (matchRegexp regexec data m rml).1 = .matchError := by
      rw [matchRegexp, if_neg h, reBlock, if_neg hstr, hret]
    simp only [iff_true]
    constructor <;> intro hc <;> rw [hm] at hc <;> cases hc

end

/-! ## A word in brackets -/

/-- Where a word first stands. -/
def firstAt (word buf : List Char) : Option ℕ :=
  (List.range (buf.length + 1)).find? fun i => word.isPrefixOf (buf.drop i)

/-- `regexec` for the regular expression `(word)`. -/
def wordExec : Regexec (List Char) := fun word buf pm =>
  match firstAt word buf with
  | some i =>
    let g : Regmatch := ⟨i, i + word.length⟩
    (.zero, (g :: g :: List.replicate pm.length unused).take pm.length)
  | none => (.noMatch, pm)

/-- Searching for a word behaves as POSIX says. -/
theorem wordExec_posix : Posix wordExec where
  length word buf pm := by
    unfold wordExec
    split
    · simp only [List.length_take, List.length_cons, List.length_replicate]
      omega
    · rfl
  found word buf pm h g hg := by
    unfold wordExec at h hg
    split at hg
    · rename_i i hi
      have hp : word <+: buf.drop i := by simpa using List.find?_some hi
      have hle := hp.length_le
      have hmem := List.mem_range.mp (List.mem_of_find?_eq_some hi)
      rw [List.length_drop] at hle
      have hg' := List.mem_of_mem_take hg
      simp only [List.mem_cons, List.mem_replicate] at hg'
      rcases hg' with rfl | rfl | ⟨-, rfl⟩
      · exact .inr (by simp only; omega)
      · exact .inr (by simp only; omega)
      · exact .inl rfl
    · rename_i hn
      rw [hn] at h
      cases h
  unmatched word buf pm h i := by
    unfold wordExec at h ⊢
    split at h
    · cases h
    · exact .inl rfl

/-- A header, an empty line and the body `bob`. -/
def bobMail : Mail Unit where
  data := ['T', 'o', ':', ' ', 'a', '\n', '\n', 'b', 'o', 'b']
  body := 7

/-- `match "(word)"` in an area. -/
def matchWord (word : List Char) (area : Area) : MatchRegexpData (List Char) where
  re := { str := '(' :: word ++ [')'], re := word }
  area := area

/-- In the body `%1` gives other bytes of the mail, and after a failed search `%0` gives all
of it. -/
theorem body_groups_lost :
    ¬ Survives wordExec [] (fun _ => none) (matchWord ['b', 'o', 'b'] .body) bobMail {} ∧
    ¬ Survives wordExec [] (fun _ => none) (matchWord ['e', 'v', 'e'] .any) bobMail {} := by
  constructor
  · intro h
    have h1 := h.matched (by decide +kernel) ['%', '1']
    revert h1
    decide +kernel
  · intro h
    have h0 := h.failed (by decide +kernel) ['%', '0']
    revert h0
    decide +kernel

/-- A word in the whole mail. -/
theorem captures_survive_any :
    Survives wordExec [] (fun _ => none) (matchWord ['b', 'o', 'b'] .any) bobMail {} ↔
      Sound wordExec (matchWord ['b', 'o', 'b'] .any) bobMail {} :=
  captures_survive_iff wordExec_posix (held_init bobMail)

end Fdm.Regexp
