import Fdm.Wrap.Text

/-!
# Removing headers

What remove-header leaves of the fields of a mail. The folds are kept as blanks while it looks for
headers; it fills the list of wrapped lines anew for each pattern, which from the second one on
finds no folds any more.

* `Laid`: a mail made of fields, with some character at their folds;
* `laid_pass`: what one pattern removes, and `laid_deliver` what all of them do;
* `removes_iff`: when the result is the mail without the fields that match, and nothing else.
-/

namespace Fdm.Wrap

open Lib.Lines Lib.Folding

variable (fnmatch : List Char → List Char → Bool) {fs : List (List Char)} {b : List Char} {m : Mail}

/-- The mail is made of fields with `ch` at their folds, and the separator and `b` behind them. -/
structure Laid (ch : Char) (fs : List (List Char)) (b : List Char) (m : Mail) : Prop where
  data : m.data = setFolds ch fs.flatten ++ '\n' :: b
  wrapped : m.wrapped = folds 0 fs.flatten
  body : m.rest.body = fs.flatten.length + 1

/-- The name of the field matches the pattern. -/
def hit (patt f : List Char) : Bool := nameMatches fnmatch patt (setFolds ' ' f)

/-- The fields that none of the patterns matches. -/
def kept (patts : List (List Char)) (fs : List (List Char)) : List (List Char) :=
  fs.filter fun f => !patts.any fun patt => hit fnmatch patt f

theorem hit_setFolds (h : Headers fs) {f : List Char} (hf : f ∈ fs) (patt : List Char) :
    hit fnmatch patt (setFolds ' ' f) = hit fnmatch patt f := by
  have hline := (h.field f hf).complete_setFolds (by decide : ' ' ≠ '\n')
  rw [hit, hit, setFolds_of_folds_nil (folds_of_complete hline 0)]

theorem kept_sublist (patts : List (List Char)) (fs : List (List Char)) :
    (kept fnmatch patts fs).Sublist fs := List.filter_sublist

theorem kept_cons (patt : List Char) (patts fs : List (List Char)) :
    kept fnmatch (patt :: patts) fs = kept fnmatch patts (kept fnmatch [patt] fs) := by
  rw [kept, kept, kept, List.filter_filter]
  refine List.filter_congr fun f _ => ?_
  simp [Bool.and_comm]

theorem kept_map (h : Headers fs) (patts : List (List Char)) :
    kept fnmatch patts (fs.map (setFolds ' ')) = (kept fnmatch patts fs).map (setFolds ' ') := by
  rw [kept, kept, List.filter_map]
  refine congrArg (List.map (setFolds ' ')) (List.filter_congr fun f hf => ?_)
  simp [hit_setFolds fnmatch h hf]

/-! ## One header -/

/-- `match_header` finds the first field that matches. -/
theorem matchHeaderFrom_fields (patt : List Char) (rest : List (List Char))
    (fs : List (List Char)) (off : ℕ) :
    (∀ f ∈ fs, hit fnmatch patt f = false) ∧
        matchHeaderFrom fnmatch (off + fs.flatten.length + 1) patt off
          (fs.map (setFolds ' ') ++ ['\n'] :: rest) = none ∨
      ∃ p f q, fs = p ++ f :: q ∧ hit fnmatch patt f = true ∧
        (∀ g ∈ p, hit fnmatch patt g = false) ∧
        matchHeaderFrom fnmatch (off + fs.flatten.length + 1) patt off
          (fs.map (setFolds ' ') ++ ['\n'] :: rest) = some (off + p.flatten.length, f.length) := by
  induction fs generalizing off with
  | nil =>
    refine Or.inl ⟨by simp, ?_⟩
    have hsep : nameMatches fnmatch patt ['\n'] = false := rfl
    rw [List.map_nil, List.nil_append, matchHeaderFrom, if_neg (by simp), hsep]
    cases rest with
    | nil => rfl
    | cons l ls =>
      rw [if_neg (by decide), matchHeaderFrom, if_pos (by simp)]
  | cons f fs ih =>
    have hbody : off + (f :: fs).flatten.length + 1 = off + f.length + fs.flatten.length + 1 := by
      rw [List.flatten_cons, List.length_append]
      omega
    have hoff : ¬ off + f.length + fs.flatten.length + 1 ≤ off := by omega
    rw [hbody, List.map_cons, List.cons_append, matchHeaderFrom, if_neg hoff, length_setFolds]
    by_cases hhit : hit fnmatch patt f = true
    · refine Or.inr ⟨[], f, fs, rfl, hhit, by simp, ?_⟩
      rw [hit] at hhit
      rw [if_pos hhit]
      rfl
    · have hmiss : hit fnmatch patt f = false := by simpa using hhit
      rw [hit] at hhit
      rw [if_neg hhit]
      rcases ih (off + f.length) with ⟨hnone, heq⟩ | ⟨p, g, q, rfl, hg, hp, heq⟩
      · refine Or.inl ⟨fun g hg => ?_, heq⟩
        rcases List.mem_cons.mp hg with rfl | hg
        · exact hmiss
        · exact hnone g hg
      · refine Or.inr ⟨f :: p, g, q, rfl, hg, fun x hx => ?_, ?_⟩
        · rcases List.mem_cons.mp hx with rfl | hx
          · exact hmiss
          · exact hp x hx
        · rw [heq, List.flatten_cons, List.length_append, Nat.add_assoc]

/-- The list of wrapped lines is kept right when a field goes. -/
theorem fixWrapped_folds {p q : List (List Char)} {f : List Char} (h : Cut (p ++ f :: q)) :
    fixWrapped p.flatten.length f.length (folds 0 (p ++ f :: q).flatten)
      = folds 0 (p ++ q).flatten := by
  have hpq : Cut (p ++ q) := h.sublist ((List.sublist_cons_self f q).append_left p)
  have hfq : Cut ([f] ++ q) := h.sublist (List.sublist_append_right p (f :: q))
  have hfront : (folds 0 p.flatten).filterMap (fun wrap =>
      if p.flatten.length + f.length ≤ wrap then some (wrap - f.length)
      else if p.flatten.length ≤ wrap then none else some wrap) = folds 0 p.flatten := by
    rw [List.filterMap_congr (g := some), List.filterMap_some]
    intro w hw
    have hlt := lt_of_mem_folds hw
    rw [if_neg (by omega), if_neg (by omega)]
  have hmiddle : (folds p.flatten.length f).filterMap (fun wrap =>
      if p.flatten.length + f.length ≤ wrap then some (wrap - f.length)
      else if p.flatten.length ≤ wrap then none else some wrap) = [] := by
    rw [List.filterMap_eq_nil_iff]
    intro w hw
    have hlt := lt_of_mem_folds hw
    have hge := (mem_folds.mp hw).1
    rw [if_neg (by omega), if_pos hge]
  have hback : (folds (p.flatten.length + f.length) q.flatten).filterMap (fun wrap =>
      if p.flatten.length + f.length ≤ wrap then some (wrap - f.length)
      else if p.flatten.length ≤ wrap then none else some wrap)
        = folds p.flatten.length q.flatten := by
    rw [folds_shift, List.filterMap_map, List.filterMap_congr (g := some), List.filterMap_some]
    intro w hw
    have hge := (mem_folds.mp hw).1
    rw [Function.comp_apply, if_pos (by omega), Nat.add_sub_cancel]
  have hsplit := hfq.folds_flatten p.flatten.length
  rw [List.singleton_append, List.flatten_singleton] at hsplit
  rw [fixWrapped, h.folds_flatten, Nat.zero_add, hsplit, List.filterMap_append,
    List.filterMap_append, hfront, hmiddle, hback, List.nil_append, hpq.folds_flatten, Nat.zero_add]

/-- To remove the bytes of a field is to remove the field. -/
theorem Laid.removeAt {p q : List (List Char)} {f : List Char}
    (h : Laid ' ' (p ++ f :: q) b m) (hfs : Headers (p ++ f :: q)) :
    Laid ' ' (p ++ q) b (removeAt p.flatten.length f.length m) := by
  have hpq : Headers (p ++ q) := hfs.sublist ((List.sublist_cons_self f q).append_left p)
  refine ⟨?_, ?_, ?_⟩
  · have hdata := h.data
    rw [hfs.toCut.setFolds_flatten, List.map_append, List.map_cons, List.flatten_append,
      List.flatten_cons, List.append_assoc, List.append_assoc] at hdata
    have hp : (p.map (setFolds ' ')).flatten.length = p.flatten.length := by
      rw [← (hfs.toCut.sublist (List.sublist_append_left p (f :: q))).setFolds_flatten,
        length_setFolds]
    have hf : (setFolds ' ' f).length = f.length := length_setFolds ' ' f
    rw [hpq.toCut.setFolds_flatten, List.map_append, List.flatten_append, List.append_assoc]
    show m.data.take p.flatten.length ++ m.data.drop (p.flatten.length + f.length) = _
    rw [hdata, ← hp, List.take_left, ← hf, ← List.drop_drop, List.drop_left, List.drop_left]
  · show fixWrapped _ _ m.wrapped = _
    rw [h.wrapped, fixWrapped_folds hfs.toCut]
  · show m.rest.body - f.length = _
    rw [h.body]
    simp only [List.flatten_append, List.flatten_cons, List.length_append]
    omega

/-! ## One pattern -/

theorem Laid.lines (h : Laid ' ' fs b m) (hfs : Headers fs) :
    lines m.data = fs.map (setFolds ' ') ++ ['\n'] :: lines b := by
  rw [h.data, hfs.toCut.setFolds_flatten, hfs.toCut.lines_setFolds (by decide)]
  rfl

/-- The loop removes the fields that match, if it can make a pass for each. -/
theorem laid_removeMatches (patt : List Char) (n : ℕ) (hn : fs.length ≤ n)
    (h : Laid ' ' fs b m) (hfs : Headers fs) :
    Laid ' ' (kept fnmatch [patt] fs) b (removeMatches fnmatch patt n m) ∧
      (removeMatches fnmatch patt n m).wrapchar = m.wrapchar := by
  induction n generalizing fs m with
  | zero =>
    obtain rfl : fs = [] := List.eq_nil_of_length_eq_zero (by omega)
    exact ⟨h, rfl⟩
  | succ n ih =>
    have hmatch := matchHeaderFrom_fields fnmatch patt (Lib.Lines.lines b) fs 0
    rw [Nat.zero_add, ← h.body, ← h.lines hfs] at hmatch
    rw [removeMatches, matchHeader]
    rcases hmatch with ⟨hnone, heq⟩ | ⟨p, f, q, rfl, hf, hp, heq⟩
    · have hkept : kept fnmatch [patt] fs = fs :=
        List.filter_eq_self.mpr fun f hf => by simp [hnone f hf]
      rw [heq, hkept]
      exact ⟨h, rfl⟩
    · have hkept : kept fnmatch [patt] (p ++ f :: q) = kept fnmatch [patt] (p ++ q) := by
        simp [kept, List.filter_append, hf]
      have hlen : (p ++ q).length ≤ n := by
        rw [List.length_append, List.length_cons] at hn
        rw [List.length_append]
        omega
      rw [heq, hkept, Nat.zero_add]
      exact ih hlen (h.removeAt hfs) (hfs.sublist ((List.sublist_cons_self f q).append_left p))

/-- The list is filled anew, and the folds it finds are set to blanks. -/
theorem laid_refill (hdata : m.data = fs.flatten ++ '\n' :: b)
    (hbody : m.rest.body = fs.flatten.length + 1) :
    ∃ m₁, fillWrapped (forget m) = some m₁ ∧ Laid ' ' fs b (m₁.setWrapped ' ') ∧
      (m₁.setWrapped ' ').wrapchar = ' ' := by
  refine ⟨_, rfl, ?_⟩
  have hfill := fillFrom_append 0 fs.flatten b
  rw [Nat.zero_add, ← hbody, ← hdata] at hfill
  have hset := foldl_set_folds ' ' '\n' [] fs.flatten ('\n' :: b)
  rw [List.nil_append, setFolds_newline, ← hdata, List.nil_append, List.length_nil, ← hfill] at hset
  exact ⟨⟨hset, hfill, hbody⟩, rfl⟩

/-- What one pattern leaves. -/
theorem laid_pass (patt : List Char) (hdata : m.data = fs.flatten ++ '\n' :: b)
    (hbody : m.rest.body = fs.flatten.length + 1) (hfs : Headers fs) :
    ∃ m₁, fillWrapped (forget m) = some m₁ ∧
      Laid ' ' (kept fnmatch [patt] fs) b
        (removeMatches fnmatch patt (m₁.setWrapped ' ').data.length (m₁.setWrapped ' ')) ∧
      (removeMatches fnmatch patt (m₁.setWrapped ' ').data.length
        (m₁.setWrapped ' ')).wrapchar = ' ' := by
  obtain ⟨m₁, hfill, hlaid, hchar⟩ := laid_refill hdata hbody
  have hlen : fs.length ≤ (m₁.setWrapped ' ').data.length := by
    have hsum := hfs.toCut.length_le
    rw [hlaid.data, List.length_append, length_setFolds]
    omega
  obtain ⟨hkept, hwrapchar⟩ := laid_removeMatches fnmatch patt _ hlen hlaid hfs
  exact ⟨m₁, hfill, hkept, hwrapchar.trans hchar⟩

/-! ## All patterns -/

/-- The patterns that are used: those in front of one that cannot be expanded or is empty. -/
def handled : List (Option (List Char)) → List (List Char)
  | some (c :: cs) :: hdrs => (c :: cs) :: handled hdrs
  | _ => []

/-- The character at the folds after a delivery. -/
def DeliverResult.wrapchar : DeliverResult → Char
  | success => '\n'
  | failure => ' '

theorem setFolds_map (h : Headers fs) :
    (fs.map (setFolds ' ')).map (setFolds ' ') = fs.map (setFolds ' ') := by
  rw [List.map_map]
  refine List.map_congr_left fun f hf => ?_
  exact setFolds_of_folds_nil
    (folds_of_complete ((h.field f hf).complete_setFolds (by decide)) 0) ' '

/-- `set_wrapped` at the end gives the folds their newlines back. -/
theorem Laid.newline (h : Laid ' ' fs b m) (hchar : m.wrapchar = ' ') :
    Laid '\n' fs b (m.setWrapped '\n') := by
  have hne : ¬ m.wrapchar = '\n' := by
    rw [hchar]
    decide
  rw [Rules.MailData.setWrapped, if_neg hne]
  refine ⟨?_, h.wrapped, h.body⟩
  have hset := foldl_set_folds '\n' ' ' [] fs.flatten ('\n' :: b)
  rw [List.nil_append, List.nil_append, List.length_nil, ← h.data, ← h.wrapped] at hset
  exact hset

theorem setWrapped_newline_wrapchar (m : Mail) : (m.setWrapped '\n').wrapchar = '\n' := by
  rw [Rules.MailData.setWrapped]
  split_ifs with h
  · exact h
  · rfl

/-- The patterns behind the first: they remove the fields that match, and lose the folds. -/
theorem laid_deliver (hdrs : List (Option (List Char))) (h : Laid ' ' fs b m)
    (hchar : m.wrapchar = ' ') (hfs : Headers fs) :
    ∃ res m', deliverRemoveHeader fnmatch hdrs m = some (res, m') ∧
      Laid res.wrapchar (if handled hdrs = [] then fs
        else (kept fnmatch (handled hdrs) fs).map (setFolds ' ')) b m' ∧
      m'.wrapchar = res.wrapchar := by
  induction hdrs generalizing fs m with
  | nil => exact ⟨.success, _, rfl, h.newline hchar, setWrapped_newline_wrapchar m⟩
  | cons hdr hdrs ih =>
    match hdr with
    | none => exact ⟨.failure, m, rfl, h, hchar⟩
    | some [] => exact ⟨.failure, m, rfl, h, hchar⟩
    | some (c :: cs) =>
      have hunfolded := hfs.unfolded (by decide : ' ' ≠ '\n')
      have hdata : m.data = (fs.map (setFolds ' ')).flatten ++ '\n' :: b := by
        rw [h.data, hfs.toCut.setFolds_flatten]
      have hbody : m.rest.body = (fs.map (setFolds ' ')).flatten.length + 1 := by
        rw [h.body, ← hfs.toCut.setFolds_flatten, length_setFolds]
      obtain ⟨m₁, hfill, hlaid, hwrapchar⟩ :=
        laid_pass fnmatch (c :: cs) hdata hbody hunfolded
      obtain ⟨res, m', hrun, hend, hendchar⟩ :=
        ih hlaid hwrapchar (hunfolded.sublist (kept_sublist _ _ _))
      refine ⟨res, m', ?_, ?_, hendchar⟩
      · rw [deliverRemoveHeader, hfill, Option.bind_some, hrun]
        simp
      · have hsub : Headers (kept fnmatch [c :: cs] fs) := hfs.sublist (kept_sublist _ _ _)
        have hfields : (if handled hdrs = [] then kept fnmatch [c :: cs] (fs.map (setFolds ' '))
            else (kept fnmatch (handled hdrs)
              (kept fnmatch [c :: cs] (fs.map (setFolds ' ')))).map (setFolds ' '))
              = (kept fnmatch ((c :: cs) :: handled hdrs) fs).map (setFolds ' ') := by
          rw [kept_map fnmatch hfs, kept_cons fnmatch (c :: cs) (handled hdrs) fs]
          split_ifs with hnil
          · rw [hnil]
            simp [kept]
          · rw [kept_map fnmatch hsub, setFolds_map (hsub.sublist (kept_sublist _ _ _))]
        rw [hfields] at hend
        exact hend

/-- The fields that are left in the end, as they stand there. -/
def remaining (patts fs : List (List Char)) : List (List Char) :=
  if patts.length ≤ 1 then kept fnmatch patts fs else (kept fnmatch patts fs).map (setFolds ' ')

/-- What the patterns leave of a mail with a header. -/
theorem deliver_laid {hdrs : List (Option (List Char))} (hne : handled hdrs ≠ [])
    (hdata : m.data = fs.flatten ++ '\n' :: b) (hbody : m.rest.body = fs.flatten.length + 1)
    (hfs : Headers fs) :
    ∃ res m', deliverRemoveHeader fnmatch hdrs m = some (res, m') ∧
      Laid res.wrapchar (remaining fnmatch (handled hdrs) fs) b m' ∧ m'.wrapchar = res.wrapchar := by
  match hdrs with
  | [] => exact absurd rfl hne
  | none :: _ => exact absurd rfl hne
  | some [] :: _ => exact absurd rfl hne
  | some (c :: cs) :: hdrs =>
    obtain ⟨m₁, hfill, hlaid, hwrapchar⟩ :=
      laid_pass fnmatch (c :: cs) hdata hbody hfs
    obtain ⟨res, m', hrun, hend, hendchar⟩ :=
      laid_deliver fnmatch hdrs hlaid hwrapchar (hfs.sublist (kept_sublist _ _ _))
    refine ⟨res, m', ?_, ?_, hendchar⟩
    · rw [deliverRemoveHeader, hfill, Option.bind_some, hrun]
      simp
    · have hfields : remaining fnmatch (handled (some (c :: cs) :: hdrs)) fs
          = if handled hdrs = [] then kept fnmatch [c :: cs] fs
            else (kept fnmatch (handled hdrs) (kept fnmatch [c :: cs] fs)).map (setFolds ' ') := by
        rw [handled, remaining, kept_cons]
        rcases hnil : handled hdrs with _ | ⟨patt, patts⟩
        · simp [kept]
        · simp
      rw [hfields]
      exact hend

/-- In a mail without a body no header is found. -/
theorem matchHeaderFrom_bodyless (patt : List Char) (off : ℕ) (ls : List (List Char)) :
    matchHeaderFrom fnmatch 0 patt off ls = none := by
  cases ls with
  | nil => rfl
  | cons l ls => rw [matchHeaderFrom, if_pos (Nat.zero_le off)]

theorem deliver_bodyless (hdrs : List (Option (List Char))) (hbody : m.rest.body = 0)
    (hwrapped : m.wrapped = []) :
    ∃ res m', deliverRemoveHeader fnmatch hdrs m = some (res, m') ∧ m'.data = m.data ∧
      m'.wrapped = [] ∧ m'.rest = m.rest := by
  have hset : ∀ {m : Mail} (ch : Char), m.wrapped = [] → (m.setWrapped ch).data = m.data ∧
      (m.setWrapped ch).wrapped = [] ∧ (m.setWrapped ch).rest = m.rest := by
    intro m ch hw
    rw [Rules.MailData.setWrapped]
    split_ifs
    · exact ⟨rfl, hw, rfl⟩
    · exact ⟨by simp [Rules.putAll, hw], hw, rfl⟩
  induction hdrs generalizing m with
  | nil =>
    obtain ⟨hdata, hw, hrest⟩ := hset '\n' hwrapped
    exact ⟨.success, _, rfl, hdata, hw, hrest⟩
  | cons hdr hdrs ih =>
    match hdr with
    | none => exact ⟨.failure, m, rfl, rfl, hwrapped, rfl⟩
    | some [] => exact ⟨.failure, m, rfl, rfl, hwrapped, rfl⟩
    | some (c :: cs) =>
      obtain ⟨m₁, hfill, hdata, hw, hrest⟩ : ∃ m₁, fillWrapped (forget m) = some m₁ ∧
          m₁.data = m.data ∧ m₁.wrapped = [] ∧ m₁.rest = m.rest := by
        refine ⟨_, rfl, rfl, ?_, rfl⟩
        show fillFrom m.rest.body 0 m.data = []
        rw [hbody, fillFrom_zero]
      obtain ⟨hdata', hw', hrest'⟩ := hset ' ' hw
      have hloop : ∀ n, removeMatches fnmatch (c :: cs) n (m₁.setWrapped ' ')
          = m₁.setWrapped ' ' := by
        intro n
        cases n with
        | zero => rfl
        | succ n =>
          rw [removeMatches, matchHeader, hrest', hrest, hbody, matchHeaderFrom_bodyless]
      obtain ⟨res, m', hrun, hend⟩ := ih (m := m₁.setWrapped ' ')
        (by rw [hrest', hrest, hbody]) hw'
      rw [hdata', hdata, hrest', hrest] at hend
      refine ⟨res, m', ?_, hend⟩
      rw [deliverRemoveHeader, hfill, Option.bind_some]
      · simp only [hloop]
        exact hrun
      · simp

/-! ## Successful deliveries -/

/-- What `find_body` gave, and the newlines at the folds that `mail_deliver` puts there. -/
structure Ready (m : Mail) : Prop where
  body : m.rest.body = bodyOf m.data
  wrapchar : m.wrapchar = '\n'

theorem handled_some {patts : List (List Char)} (h : ∀ patt ∈ patts, patt ≠ []) :
    handled (patts.map some) = patts := by
  induction patts with
  | nil => rfl
  | cons patt patts ih =>
    cases patt with
    | nil => exact absurd rfl (h [] List.mem_cons_self)
    | cons c cs =>
      rw [List.map_cons, handled, ih fun x hx => h x (List.mem_cons_of_mem _ hx)]

theorem handled_ne (hdrs : List (Option (List Char))) : ∀ patt ∈ handled hdrs, patt ≠ [] := by
  induction hdrs with
  | nil => simp [handled]
  | cons hdr hdrs ih =>
    match hdr with
    | none => simp [handled]
    | some [] => simp [handled]
    | some (c :: cs) =>
      rw [handled, List.forall_mem_cons]
      exact ⟨List.cons_ne_nil c cs, ih⟩

/-- A delivery is successful just when no pattern is empty. -/
theorem success_iff {hdrs : List (Option (List Char))} {m m' : Mail} {res : DeliverResult}
    (h : deliverRemoveHeader fnmatch hdrs m = some (res, m')) :
    res = .success ↔ hdrs = (handled hdrs).map some := by
  induction hdrs generalizing m with
  | nil =>
    cases h
    simp [handled]
  | cons hdr hdrs ih =>
    match hdr with
    | none => cases h; simp [handled]
    | some [] => cases h; simp [handled]
    | some (c :: cs) =>
      rw [deliverRemoveHeader, Option.bind_eq_some_iff] at h
      · obtain ⟨m₁, -, h⟩ := h
        rw [ih h, handled, List.map_cons, List.cons_inj_right]
      · simp

/-- What a successful delivery leaves. -/
theorem deliver_data {patts : List (List Char)} (hne : ∀ patt ∈ patts, patt ≠ []) (h : Ready m) :
    ∃ m', deliverRemoveHeader fnmatch (patts.map some) m = some (.success, m') ∧
      m'.data = (remaining fnmatch patts (fields (headerOf m.data))).flatten ++ restOf m.data ∧
      m'.data.drop m'.rest.body = m.data.drop m.rest.body := by
  have hall := handled_some hne
  have hsuccess : ∀ {res m'}, deliverRemoveHeader fnmatch (patts.map some) m = some (res, m') →
      res = .success := fun hrun => (success_iff fnmatch hrun).mpr (by rw [hall])
  rcases patts with _ | ⟨patt, patts⟩
  · -- without patterns nothing is done
    refine ⟨m, ?_, ?_, rfl⟩
    · rw [List.map_nil, deliverRemoveHeader, Rules.MailData.setWrapped, if_pos h.wrapchar]
    · have hkept : remaining fnmatch [] (fields (headerOf m.data)) = fields (headerOf m.data) := by
        simp [remaining, kept]
      rw [hkept, flatten_fields, header_rest]
  · rcases headed m.data with ⟨hzero, -⟩ | ⟨hd, b, hhd, hdata⟩
    · have hforget : deliverRemoveHeader fnmatch ((patt :: patts).map some) m
          = deliverRemoveHeader fnmatch ((patt :: patts).map some) (forget m) := by
        cases patt with
        | nil => exact absurd rfl (hne [] List.mem_cons_self)
        | cons c cs => rfl
      have hbody : (forget m).rest.body = 0 := h.body.trans hzero
      obtain ⟨res, m', hrun, hdata, -, hrest⟩ :=
        deliver_bodyless fnmatch ((patt :: patts).map some) hbody rfl
      rw [← hforget] at hrun
      obtain rfl := hsuccess hrun
      have hnone : remaining fnmatch (patt :: patts) [] = [] := by
        simp [remaining, kept]
      have hrestOf : restOf m.data = m.data := by
        rw [restOf, hzero]
        rfl
      refine ⟨m', hrun, ?_, ?_⟩
      · rw [headerOf_of_bodyOf hzero, fields, hnone, hrestOf]
        exact hdata
      · rw [hdata, hrest]
        rfl
    · have hfs := hhd.headers
      have hbody : m.rest.body = (fields hd).flatten.length + 1 := by
        rw [h.body, hdata, bodyOf_append hhd, flatten_fields]
      have hfields : m.data = (fields hd).flatten ++ '\n' :: b := by rw [flatten_fields, hdata]
      obtain ⟨res, m', hrun, hlaid, -⟩ :=
        deliver_laid fnmatch (by rw [hall]; simp) hfields hbody hfs
      obtain rfl := hsuccess hrun
      rw [hall] at hlaid
      have hend := hlaid.data
      rw [DeliverResult.wrapchar, setFolds_newline] at hend
      refine ⟨m', hrun, ?_, ?_⟩
      · rw [hend, hdata, headerOf_append hhd, restOf_append hhd]
      · rw [hlaid.body, hend, hbody, hdata, flatten_fields]
        have hdrop : ∀ x : List Char, (x ++ '\n' :: b).drop (x.length + 1) = b := fun x => by
          rw [← List.drop_drop, List.drop_left]
          rfl
        rw [hdrop, hdrop]

/-- The mail is as it was, but for the fields that a pattern matches. -/
def Removed (patts : List (List Char)) (m m' : Mail) : Prop :=
  m'.data = (kept fnmatch patts (fields (headerOf m.data))).flatten ++ restOf m.data ∧
    m'.data.drop m'.rest.body = m.data.drop m.rest.body

/-- No folded field is left by the patterns. -/
def FoldsGone (patts : List (List Char)) (text : List Char) : Prop :=
  ∀ f ∈ fields (headerOf text), folds 0 f ≠ [] → ∃ patt ∈ patts, hit fnmatch patt f = true

theorem kept_perm {patts patts' : List (List Char)} (h : patts'.Perm patts)
    (fs : List (List Char)) : kept fnmatch patts' fs = kept fnmatch patts fs := by
  refine List.filter_congr fun f _ => ?_
  rw [h.any_eq]

/-- The folds are kept if there is one pattern, or no fold to keep. -/
theorem remaining_flatten_iff (hfs : Headers fs) (patts : List (List Char)) :
    (remaining fnmatch patts fs).flatten = (kept fnmatch patts fs).flatten ↔
      patts.length ≤ 1 ∨ ∀ f ∈ fs, folds 0 f ≠ [] → ∃ patt ∈ patts, hit fnmatch patt f = true := by
  have hsub : Headers (kept fnmatch patts fs) := hfs.sublist (kept_sublist _ _ _)
  rw [remaining]
  split_ifs with hlen
  · exact ⟨fun _ => Or.inl hlen, fun _ => rfl⟩
  · rw [or_iff_right hlen, ← hsub.toCut.setFolds_flatten,
      setFolds_eq_iff (by decide : ' ' ≠ '\n') 0, hsub.toCut.folds_eq_nil]
    constructor
    · intro hnone f hf hfold
      by_contra hmiss
      refine hfold (hnone f (List.mem_filter.mpr ⟨hf, ?_⟩))
      simpa using hmiss
    · intro hgone f hf
      by_contra hfold
      obtain ⟨hf, hmiss⟩ := List.mem_filter.mp hf
      obtain ⟨patt, hpatt, hhit⟩ := hgone f hf hfold
      simp only [Bool.not_eq_true', List.any_eq_false] at hmiss
      exact hmiss patt hpatt hhit

theorem header_headerOf (text : List Char) : Header (headerOf text) := by
  rcases headed text with ⟨hzero, -⟩ | ⟨h, b, hh, rfl⟩
  · rw [headerOf_of_bodyOf hzero]
    exact header_nil
  · rwa [headerOf_append hh]

/-- The body of the mail stays, the fields that match go, and the order of the patterns is of no
matter, just when there is one pattern or no folded field is left. -/
theorem removes_iff {patts : List (List Char)} {m' : Mail} (hready : Ready m)
    (h : deliverRemoveHeader fnmatch (patts.map some) m = some (.success, m')) :
    (Removed fnmatch patts m m' ∧ ∀ patts' : List (List Char), patts'.Perm patts →
      ∃ m'', deliverRemoveHeader fnmatch (patts'.map some) m = some (.success, m'') ∧
        m''.data = m'.data) ↔
      patts.length ≤ 1 ∨ FoldsGone fnmatch patts m.data := by
  have hne : ∀ patt ∈ patts, patt ≠ [] := by
    have hall := (success_iff fnmatch h).mp rfl
    rw [List.map_inj_right fun _ _ => Option.some.inj] at hall
    rw [hall]
    exact handled_ne _
  obtain ⟨m₁, hrun, hdata, hbody⟩ := deliver_data fnmatch hne hready
  obtain ⟨-, rfl⟩ : DeliverResult.success = .success ∧ m₁ = m' := by
    simpa [hrun] using h
  have hfs := (header_headerOf m.data).headers
  rw [FoldsGone, ← remaining_flatten_iff fnmatch hfs]
  constructor
  · rintro ⟨⟨hremoved, -⟩, -⟩
    rw [hdata] at hremoved
    exact List.append_cancel_right hremoved
  · intro hkept
    refine ⟨⟨by rw [hdata, hkept], hbody⟩, fun patts' hperm => ?_⟩
    obtain ⟨m₂, hrun₂, hdata₂, -⟩ :=
      deliver_data fnmatch (fun patt hpatt => hne patt (hperm.subset hpatt)) hready
    refine ⟨m₂, hrun₂, ?_⟩
    rw [hdata₂, hdata, remaining, remaining, hperm.length_eq, kept_perm fnmatch hperm]

/-- A folded header, and one to be removed. -/
def foldedMail : Mail where
  data := ['A', ':', ' ', 'b', '\n', ' ', 'c', '\n', 'X', ':', '\n', '\n', 't', '\n']
  wrapchar := '\n'
  rest := { space := 512, body := 12 }

def sameName (patt name : List Char) : Bool := patt = name

theorem foldedMail_ready : Ready foldedMail := ⟨by decide, rfl⟩

theorem removes_iff_oneHeader :
    (Removed sameName [['X']] foldedMail
        ((deliverRemoveHeader sameName [some ['X']] foldedMail).get (by decide)).2 ∧
      ∀ patts' : List (List Char), patts'.Perm [['X']] →
        ∃ m'', deliverRemoveHeader sameName (patts'.map some) foldedMail = some (.success, m'') ∧
          m''.data = ((deliverRemoveHeader sameName [some ['X']] foldedMail).get (by decide)).2.data) ↔
      [['X']].length ≤ 1 ∨ FoldsGone sameName [['X']] foldedMail.data :=
  removes_iff sameName foldedMail_ready (by decide)

/-- Two patterns take the fold from a header that neither of them matches. -/
theorem not_removed_twoHeaders :
    ¬ ∀ (fnmatch : List Char → List Char → Bool) (patts : List (List Char)) (m m' : Mail), Ready m →
      deliverRemoveHeader fnmatch (patts.map some) m = some (.success, m') →
      Removed fnmatch patts m m' := by
  intro hall
  have hremoved := hall sameName [['X'], ['Y']] foldedMail
    ((deliverRemoveHeader sameName [some ['X'], some ['Y']] foldedMail).get (by decide)).2
    foldedMail_ready (by decide)
  have hdata := hremoved.1
  revert hdata
  decide

end Fdm.Wrap
