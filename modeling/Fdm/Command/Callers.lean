import Fdm.Command.Invariant
import Fdm.Regexp

/-!
# The callers of `cmd_poll`

The loops around `cmd_poll` of a command condition (`child_deliver_cmd_hook`) and of a rewrite
action (`deliver_rewrite_deliver`), as functions of what `cmd_poll` returns; `none` is a loop that
still waits. Both say what they do of all the lines at once: `hookLoop_eq` and `rewriteLoop_eq`.
-/

namespace Fdm.Command

open Regexp Replace

/-! ## The functions -/

/-- `struct match_command_data` as the grammar admits it; a `ret` of -1 is not asked for. -/
structure MatchCommandData (ρ : Type) where
  ret : ℤ := -1
  re : Option (Re ρ)
  given : ret ≠ -1 ∨ re.isSome = true

variable {ρ : Type} (regexec : Regexec ρ) (data : MatchCommandData ρ)

/-- The flags that `child_deliver_cmd_hook` starts the command with. -/
def MatchCommandData.flags (pipe : Bool) : Flags :=
  { cmdIn := pipe, cmdOut := data.re.isSome, cmdOnce := true }

/-- The tags for the groups of a match. -/
def commandTags (rml : Rmlist) (out : List Char) : List (List Char × List Char) :=
  if rml.valid = false then []
  else
    (rml.list.takeWhile (·.valid)).zipIdx.map fun q =>
      ("command".toList ++ (toString q.2).toList, slice out q.1.so q.1.eo)

/-- The end of `child_deliver_cmd_hook`. -/
def verdict (found : Bool) (status : ℤ) : MatchResult :=
  if data.ret ≠ -1 ∧ data.re.isSome then
    if found = true ∧ data.ret = status then .matchTrue else .matchFalse
  else if data.ret ≠ -1 ∧ data.re = none then
    if data.ret = status then .matchTrue else .matchFalse
  else if data.ret = -1 ∧ data.re.isSome then if found then .matchTrue else .matchFalse
  else .matchError

/-- The loop of `child_deliver_cmd_hook`, and the tags it has added. A line without a regexp
would be searched for a pattern at `NULL`. -/
def hookLoop (found : Bool) (tags : List (List Char × List Char)) :
    List Result → Option (MatchResult × List (List Char × List Char))
  | [] => if found = true ∧ data.ret = -1 then some (verdict data found 0, tags) else none
  | r :: rs =>
    if found = true ∧ data.ret = -1 then some (verdict data found 0, tags)
    else if r.ret = -1 then some (.matchError, tags)
    else if r.ret ≠ 0 then some (verdict data found (r.ret - 1), tags)
    else
      match r.out with
      | none => hookLoop found tags rs
      | some out =>
        if found then hookLoop found tags rs
        else
          match data.re with
          | none => none
          | some re =>
            match reBlock regexec re out with
            | (none, _) => some (.matchError, tags)
            | (some false, _) => hookLoop false tags rs
            | (some true, rml) => hookLoop true (tags ++ commandTags rml out) rs

/-- The loop of `deliver_rewrite_deliver`; `some none` is `DELIVER_FAILURE`. -/
def rewriteLoop (maxSize : ℕ) (md : Mail Unit) : List Result → Option (Option (Mail Unit))
  | [] => none
  | r :: rs =>
    if r.ret = -1 then some none
    else if r.ret ≠ 0 then
      if r.ret - 1 ≠ 0 then some none
      else if md.size = 0 then some none
      else some (some md.withBody)
    else
      match r.out with
      | none => rewriteLoop maxSize md rs
      | some out =>
        if maxSize < (md.appendLine out).size then some none
        else rewriteLoop maxSize (md.appendLine out) rs

/-! ## What they do of the lines -/

/-- What `cmd_poll` returns when no call fails: zeros, and at last the exit code plus one. -/
inductive Calls : List Result → Option ℤ → Prop
  | nil : Calls [] none
  | last (r : Result) (h : 0 < r.ret) (hout : r.out = none) : Calls [r] (some r.ret)
  | cons (r : Result) {rs : List Result} {v : Option ℤ} (h : r.ret = 0) (hrs : Calls rs v) :
      Calls (r :: rs) v

theorem Calls.append {rs : List Result} (h : Calls rs none) (r : Result) {v : Option ℤ}
    (hr : Calls [r] v) : Calls (rs ++ [r]) v := by
  generalize hnone : (none : Option ℤ) = w at h
  induction h with
  | nil => exact hr
  | last => cases hnone
  | cons x hx _ ih => exact .cons x hx (ih hnone)

/-- A line matches. -/
def MatchCommandData.found (line : List Char) : Bool :=
  data.re.any fun re => (reBlock regexec re line).1 = some true

/-- The condition is decided by whether some line matches, and by the exit code. -/
theorem hookLoop_eq {rs : List Result} {v : Option ℤ} (h : Calls rs v)
    (hre : ∀ re, data.re = some re →
      ∀ l ∈ rs.filterMap Result.out, (reBlock regexec re l).1 ≠ none)
    (hnone : data.re = none → rs.filterMap Result.out = []) (found : Bool)
    (tags : List (List Char × List Char)) :
    (hookLoop regexec data found tags rs).map Prod.fst =
      if (found || (rs.filterMap Result.out).any (data.found regexec)) = true ∧ data.ret = -1 then
        some (verdict data true 0)
      else
        v.map fun v =>
          verdict data (found || (rs.filterMap Result.out).any (data.found regexec)) (v - 1) := by
  induction h generalizing found tags with
  | nil =>
    rw [hookLoop, List.filterMap_nil, List.any_nil, Bool.or_false]
    split_ifs with hstop
    · rw [hstop.1]
      rfl
    · rfl
  | last r hpos hout =>
    have hlines : [r].filterMap Result.out = [] := by simp [hout]
    rw [hookLoop, hlines, List.any_nil, Bool.or_false]
    by_cases hstop : found = true ∧ data.ret = -1
    · rw [if_pos hstop, if_pos hstop, hstop.1]
      rfl
    · rw [if_neg hstop, if_neg hstop, if_neg (by omega), if_pos (by omega)]
      rfl
  | @cons r rs v hzero hrs ih =>
    rw [hookLoop]
    by_cases hstop : found = true ∧ data.ret = -1
    · rw [if_pos hstop, if_pos ⟨by simp [hstop.1], hstop.2⟩, hstop.1]
      rfl
    rw [if_neg hstop, if_neg (by omega), if_neg (by omega)]
    cases hout : r.out with
    | none =>
      have hlines : (r :: rs).filterMap Result.out = rs.filterMap Result.out := by simp [hout]
      rw [hlines] at hre hnone ⊢
      exact ih hre hnone found tags
    | some out =>
      have hlines : (r :: rs).filterMap Result.out = out :: rs.filterMap Result.out := by
        simp [hout]
      rw [hlines] at hre hnone ⊢
      have ih' := ih (fun re hdata l hl => hre re hdata l (List.mem_cons_of_mem out hl))
        (fun hdata => nomatch hnone hdata)
      rw [List.any_cons]
      by_cases hfound : found = true
      · subst hfound
        simpa using ih' true tags
      · rw [Bool.not_eq_true] at hfound
        subst hfound
        cases hdata : data.re with
        | none => exact nomatch hnone hdata
        | some re =>
          have hran := hre re hdata out List.mem_cons_self
          simp only [Bool.false_eq_true, if_false]
          cases hblock : reBlock regexec re out with
          | mk res rml =>
            rw [hblock] at hran
            cases res with
            | none => exact absurd rfl hran
            | some matched =>
              have hmatched : data.found regexec out = matched := by
                simp [MatchCommandData.found, hdata, hblock]
              rw [hmatched]
              cases matched with
              | false => simpa using ih' false tags
              | true => simpa using ih' true _

/-- Lines as a mail has them. -/
def mailOf (ls : List (List Char)) : List Char := (ls.map (· ++ ['\n'])).flatten

/-- The mail is the lines, when they are not too many, and there is one if the command exits
with 0 and there are lines. -/
theorem rewriteLoop_eq {rs : List Result} {v : Option ℤ} (h : Calls rs v) {maxSize : ℕ}
    {md : Mail Unit} (hmd : md.size ≤ maxSize) :
    rewriteLoop maxSize md rs =
      if maxSize < (md.data ++ mailOf (rs.filterMap Result.out)).length then some none
      else
        v.map fun v =>
          if v = 1 ∧ md.data ++ mailOf (rs.filterMap Result.out) ≠ [] then
            some ({ md with data := md.data ++ mailOf (rs.filterMap Result.out) } : Mail Unit).withBody
          else none := by
  induction h generalizing md with
  | nil =>
    have hfit : ¬ maxSize < (md.data ++ mailOf []).length := by
      rw [mailOf, List.map_nil, List.flatten_nil, List.append_nil]
      exact Nat.not_lt.mpr hmd
    rw [rewriteLoop, List.filterMap_nil, if_neg hfit, Option.map_none]
  | last r hpos hout =>
    have hlines : [r].filterMap Result.out = [] := by simp [hout]
    have hmail : md.data ++ mailOf [] = md.data := List.append_nil md.data
    have hfit : ¬ maxSize < md.data.length := Nat.not_lt.mpr hmd
    rw [rewriteLoop, hlines, hmail, if_neg hfit, if_neg (by omega), if_pos (by omega),
      Option.map_some]
    by_cases hone : r.ret = 1
    · rw [if_neg (by omega)]
      by_cases hempty : md.size = 0
      · have hnil : md.data = [] := List.length_eq_zero_iff.mp hempty
        rw [if_pos hempty, if_neg (by simp [hnil])]
      · have hne : md.data ≠ [] := fun hnil => hempty (by rw [Mail.size, hnil, List.length_nil])
        rw [if_neg hempty, if_pos ⟨hone, hne⟩]
    · rw [if_pos (by omega), if_neg (by simp [hone])]
  | @cons r rs v hzero hrs ih =>
    rw [rewriteLoop, if_neg (by omega), if_neg (by omega)]
    cases hout : r.out with
    | none =>
      have hlines : (r :: rs).filterMap Result.out = rs.filterMap Result.out := by simp [hout]
      rw [hlines]
      exact ih hmd
    | some out =>
      have hlines : (r :: rs).filterMap Result.out = out :: rs.filterMap Result.out := by
        simp [hout]
      have hdata : md.data ++ mailOf (out :: rs.filterMap Result.out)
          = (md.appendLine out).data ++ mailOf (rs.filterMap Result.out) := by
        simp [mailOf, Mail.appendLine]
      rw [hlines, hdata]
      dsimp only
      by_cases hover : maxSize < (md.appendLine out).size
      · have hlong : maxSize
            < ((md.appendLine out).data ++ mailOf (rs.filterMap Result.out)).length := by
          rw [List.length_append]
          exact Nat.lt_of_lt_of_le hover (Nat.le_add_right _ _)
        rw [if_pos hover, if_pos hlong]
      · rw [if_neg hover, ih (Nat.not_lt.mp hover)]
        rfl

end Fdm.Command
