import Fdm.Command.Callers
import Fdm.Command.Progress

/-!
# What commands report

What `cmd_poll` returns in a whole run, from `cmd_start` to the exit code, and what a command
condition and a rewrite action make of it.

* `reported_faithfully`: every line once and in order, and then the exit code, as long as no
  call finds a descriptor closed while the child still runs;
* `killed`, `killed_never_exits`: a call that does find that kills the child, and then there is no
  exit code.
-/

namespace Fdm.Command

open Lib.Lines Lib.Runs Regexp Io

/-! ## Statements -/

/-- What has been returned are the first lines of both outputs. In the end it is all of them, and
the exit code plus one. -/
structure Faithful (r : Run) : Prop where
  out : r.outLines <+: outputLines r.child.out.wrote
  err : r.errLines <+: outputLines r.child.err.wrote
  ended : ∀ v, r.ended = some v → ∃ code : Fin 256, r.child.status = .exited code ∧ v = 1 + code ∧
    r.outLines = outputLines r.child.out.wrote ∧ r.errLines = outputLines r.child.err.wrote

/-- Once the child has exited, the run ends: only so many calls that are not interrupted return
something else than the exit code, and until then another one is possible. -/
def Finishes (timeout : ℕ) (r : Run) : Prop :=
  ∀ code, r.child.status = .exited code → ∃ most : ℕ, ∀ (as : List Answers) (r' : Run),
    (∀ a ∈ as, a.prompt = true ∧ a.fails timeout = false) →
      exec (step timeout) r (as.map .call) = some r' → r'.ended = none →
        as.length ≤ most ∧ ∃ a : Answers, a.prompt = true ∧ a.fails timeout = false ∧
          (step timeout r' (.call a)).isSome = true

/-- The exit code is the one asked for, if any, and some line matches the regexp, if any. -/
def Holds {ρ : Type} (regexec : Regexec ρ) (data : MatchCommandData ρ) (child : Child) : Prop :=
  (data.ret ≠ -1 → ∃ code : Fin 256, child.status = .exited code ∧ data.ret = code) ∧
    ∀ re, data.re = some re →
      ∃ l ∈ outputLines child.out.wrote, (reBlock regexec re l).1 = some true

/-- The result of a command condition is right, and there is one in the end. -/
structure Judges {ρ : Type} (regexec : Regexec ρ) (data : MatchCommandData ρ) (r : Run) : Prop where
  right : ∀ res tags, hookLoop regexec data false [] r.results = some (res, tags) →
    (res = .matchTrue ∨ res = .matchFalse) ∧
      (res = .matchTrue ↔ Holds regexec data r.child)
  returns : r.ended ≠ none → (hookLoop regexec data false [] r.results).isSome = true

/-- The new mail is the output lines, and there is one in the end when the command has succeeded
and the lines are a mail that is not too large. -/
structure Rewrites (r : Run) : Prop where
  exactly : ∀ maxSize md, rewriteLoop maxSize {} r.results = some (some md) →
    r.child.status = .exited 0 ∧ md.data = mailOf (outputLines r.child.out.wrote)
  returns : ∀ maxSize, r.ended = some 1 → outputLines r.child.out.wrote ≠ [] →
    (mailOf (outputLines r.child.out.wrote)).length ≤ maxSize →
      ∃ md, rewriteLoop maxSize {} r.results = some (some md)

/-- No call fails, and none kills the child. -/
def Undisturbed (timeout : ℕ) (r : Run) : Event → Prop
  | .move _ => True
  | .call a => a.fails timeout = false ∧ Spares r.cmd r.child a

instance (c : Child) : Decidable c.Spared := inferInstanceAs (Decidable (_ ∨ _))

instance (cmd : Cmd) (child : Child) (a : Answers) : Decidable (Spares cmd child a) :=
  inferInstanceAs (Decidable (_ → _))

instance (timeout : ℕ) (r : Run) : DecidablePred (Undisturbed timeout r)
  | .move _ => inferInstanceAs (Decidable True)
  | .call _ => inferInstanceAs (Decidable (_ ∧ _))

/-! ## Runs -/

/-- What holds in a run without disturbance, when the outputs fit. -/
structure RunInv (flags : Flags) (r : Run) : Prop where
  good : Good r.cmd r.child r.outLines r.errLines
  calls : Calls r.results r.ended
  exited : ∀ v, r.ended = some v → ∃ code : Fin 256, v = 1 + code ∧
    r.child.status = .exited code ∧ Drained r.cmd
  /-- Without a pipe nothing comes of the standard output. -/
  null : flags.cmdOut = false → r.child.out.isOpen = false ∧ r.child.out.wrote = []

variable {flags : Flags} {buf : List Char} {timeout : ℕ} {r r' : Run}

/-- A pipe is read by lines that end with a newline. -/
theorem create_lf : ∃ io, Io.create ioLf = some io ∧ io.eol = ioLf ∧ io.error = none ∧
    io.closed = false ∧ io.rd.contents = [] := by
  obtain ⟨b, hcreate, hcontents⟩ := Buffer.create_spec (n := ioBlocksize) (by decide)
  exact ⟨{ rd := b, eol := ioLf }, by rw [Io.create, hcreate]; rfl, rfl, rfl, rfl, hcontents⟩

/-- A stream at its start. -/
theorem flow_start {io : Io} (heol : io.eol = ioLf) (herror : io.error = none)
    (hopen : io.closed = false) (hcontents : io.rd.contents = []) {p : Pipe} (hwrote : p.wrote = [])
    (hunread : p.unread = []) : Flow (some io) p [] where
  split := ⟨[], by rw [pending, hcontents, hunread, hwrote]; rfl, rfl, .inl (.inl rfl)⟩
  shut := nofun
  usable i hi := by
    obtain rfl := Option.some_inj.mp hi
    exact ⟨heol, herror, fun hclosed => absurd hclosed (by simp [hopen])⟩

/-- A command that was just started has written nothing. -/
theorem runInv_start (h : start flags buf = some r) : RunInv flags r := by
  obtain ⟨io, hcreate, heol, herror, hopen, hcontents⟩ := create_lf
  obtain ⟨cmd, hcmd, rfl⟩ := Option.map_eq_some_iff.mp h
  simp only [cmdStart, hcreate, Option.bind_eq_bind, Option.bind_some, Option.some_inj] at hcmd
  subst hcmd
  refine ⟨⟨?_, flow_start heol herror hopen hcontents rfl rfl, ?_⟩, .nil, nofun,
    fun hout => ⟨hout, rfl⟩⟩
  · cases hout : flags.cmdOut with
    | true =>
      simp only [if_true]
      exact flow_start heol herror hopen hcontents rfl rfl
    | false =>
      simp only [Bool.false_eq_true, if_false, childStart, hout]
      exact ⟨⟨[], rfl, rfl, .inl (.inl rfl)⟩, fun _ => rfl, nofun⟩
  · exact ⟨fun _ => nofun, fun hended => absurd rfl hended⟩

/-- The result of the last call says whether the command has ended. -/
theorem ended_append (h : r.ended = none) (x : Result) (cmd : Cmd) (child : Child) :
    ({ cmd := cmd, child := child, results := r.results ++ [x] } : Run).ended
      = if x.ret = 0 then none else some x.ret := by
  unfold Run.ended at h ⊢
  rw [List.map_append, List.find?_append, h]
  by_cases hzero : x.ret = 0
  · simp [hzero]
  · simp [hzero]

/-- A call in a run. -/
theorem RunInv.call (h : RunInv flags r) {a : Answers} (hover : r.ended = none)
    (hcalm : a.fails timeout = false) (hspares : Spares r.cmd r.child a)
    {x : Result} {cmd' : Cmd} {child' : Child}
    (hcall : r.cmd.cmdPoll timeout r.child a = some (x, cmd', child')) (hfits : Fitting child') :
    RunInv flags { cmd := cmd', child := child', results := r.results ++ [x] } := by
  have hnext := h.good.call hcalm hspares hcall hfits
  have hlines : ∀ stream : Result → Option (List Char),
      (r.results ++ [x]).filterMap stream = r.results.filterMap stream ++ (stream x).toList := by
    intro stream
    rw [List.filterMap_append]
    cases hx : stream x <;> simp [hx]
  have hcalls := h.calls
  rw [hover] at hcalls
  refine ⟨?_, ?_, ?_, fun hnull => ?_⟩
  · show Good cmd' child' ((r.results ++ [x]).filterMap Result.out)
      ((r.results ++ [x]).filterMap Result.err)
    rw [hlines, hlines]
    exact hnext.1
  · rw [ended_append hover]
    refine hcalls.append x ?_
    cases hnext.2 with
    | more hzero =>
      rw [if_pos hzero]
      exact .cons x hzero .nil
    | exit code hret hstatus hdrained hout herr =>
      have hpos : 0 < x.ret := by omega
      rw [if_neg (by omega)]
      exact .last x hpos hout
  · rw [ended_append hover]
    intro v hv
    cases hnext.2 with
    | more hzero =>
      rw [if_pos hzero] at hv
      cases hv
    | exit code hret hstatus hdrained hout herr =>
      rw [if_neg (by omega), Option.some_inj] at hv
      exact ⟨code, hv.symm.trans hret, hstatus, hdrained⟩
  · have hempty := h.null hnull
    have hshut := (cmdPoll_evolves hcall).1.grows.out.shut hempty.1
    exact ⟨hshut.1, hshut.2.trans hempty.2⟩

/-- The command may go on by itself. -/
theorem RunInv.move (h : RunInv flags r) (m : Move) :
    RunInv flags { r with child := r.child.move m } := by
  refine ⟨h.good.moves [m], h.calls, fun v hv => ?_, fun hnull => ?_⟩
  · obtain ⟨code, hcode, hstatus, hdrained⟩ := h.exited v hv
    refine ⟨code, hcode, ?_, hdrained⟩
    show (r.child.moves [m]).status = _
    rw [moves_exited hstatus]
    exact hstatus
  · have hempty := h.null hnull
    have hshut := (Grows.moves r.child [m]).out.shut hempty.1
    exact ⟨hshut.1, hshut.2.trans hempty.2⟩

/-- A step in a run. -/
theorem runInv_step {e : Event} (h : Fitting r.child → RunInv flags r)
    (hcalm : Undisturbed timeout r e) (hstep : step timeout r e = some r') :
    Fitting r'.child → RunInv flags r' := by
  intro hfits
  cases e with
  | move m =>
    obtain rfl := Option.some_inj.mp hstep
    exact (h ((Grows.moves r.child [m]).fitting hfits)).move m
  | call a =>
    simp only [step] at hstep
    split_ifs at hstep with hover
    obtain ⟨⟨x, cmd', child'⟩, hcall, rfl⟩ := Option.map_eq_some_iff.mp hstep
    have hgrows := (cmdPoll_evolves hcall).1.grows
    exact (h (hgrows.fitting hfits)).call (not_not.mp hover) hcalm.1 hcalm.2 hcall hfits

/-! ## Every line, and then the exit code -/

/-- What has been handed out is the beginning of what the command has written. -/
theorem Flow.prefix_lines {io : Option Io} {p : Pipe} {ds : List (List Char)} (h : Flow io p ds) :
    ds <+: outputLines p.wrote := by
  obtain ⟨front, hwrote, rfl, hends⟩ := h.split
  rcases hends with hends | hends
  · rw [hwrote, hends.outputLines_append]
    exact List.prefix_append _ _
  · rw [hwrote, hends.1, List.append_nil]

/-- From a pipe that was closed, all lines have been handed out. -/
theorem Flow.all_lines {p : Pipe} {ds : List (List Char)} (h : Flow none p ds) :
    ds = outputLines p.wrote := by
  obtain ⟨front, hwrote, rfl, -⟩ := h.split
  rw [hwrote]
  exact congrArg outputLines (List.append_nil front).symm

/-- The invariant says that the lines and the status are reported faithfully. -/
theorem RunInv.faithful (h : RunInv flags r) : Faithful r where
  out := h.good.out.prefix_lines
  err := h.good.err.prefix_lines
  ended v hv := by
    obtain ⟨code, hcode, hstatus, hdrained⟩ := h.exited v hv
    have hout := h.good.out
    have herr := h.good.err
    rw [hdrained.out] at hout
    rw [hdrained.err] at herr
    exact ⟨code, hstatus, hcode, hout.all_lines, herr.all_lines⟩

/-- Every call that is not interrupted leaves less to do. -/
theorem RunInv.counts {code : Fin 256} {as : List Answers} (h : RunInv flags r)
    (hfits : Fitting r.child) (hstatus : r.child.status = .exited code)
    (hcalls : ∀ a ∈ as, a.prompt = true ∧ a.fails timeout = false)
    (hexec : exec (step timeout) r (as.map .call) = some r') (hover : r'.ended = none) :
    RunInv flags r' ∧ Fitting r'.child ∧ r'.child.status = .exited code ∧
      r'.cmd.todo r'.child + as.length ≤ r.cmd.todo r.child := by
  induction as generalizing r with
  | nil =>
    obtain rfl := Option.some_inj.mp hexec
    exact ⟨h, hfits, hstatus, Nat.le_refl _⟩
  | cons a as ih =>
    rw [List.map_cons, exec, Option.bind_eq_some_iff] at hexec
    obtain ⟨r₁, hstep, hexec⟩ := hexec
    simp only [step] at hstep
    split_ifs at hstep with hgoing
    rw [not_not] at hgoing
    obtain ⟨⟨x, cmd', child'⟩, hcall, rfl⟩ := Option.map_eq_some_iff.mp hstep
    have ha := hcalls a List.mem_cons_self
    have hspares : Spares r.cmd r.child a := by
      intro _
      rw [moves_exited hstatus, moves_exited hstatus]
      exact .inl (by simp [hstatus])
    have htodo := h.good.todo_call ha.2 ha.1 hfits hstatus hcall
    have hnext := h.call hgoing ha.2 hspares hcall htodo.2.1
    have hrest := ih hnext htodo.2.1 htodo.1
      (fun b hb => hcalls b (List.mem_cons_of_mem a hb)) hexec
    -- the run goes on behind this call, so it has returned zero
    have hzero : x.ret = 0 := by
      by_contra hne
      have hended := ended_append hgoing x cmd' child'
      rw [if_neg hne] at hended
      cases as with
      | nil =>
        obtain rfl := Option.some_inj.mp hexec
        rw [hover] at hended
        cases hended
      | cons b bs =>
        rw [List.map_cons, exec, Option.bind_eq_some_iff] at hexec
        obtain ⟨r₂, hstep₂, -⟩ := hexec
        simp only [step, hended, ne_eq, reduceCtorEq, not_false_eq_true, if_true] at hstep₂
    refine ⟨hrest.1, hrest.2.1, hrest.2.2.1, ?_⟩
    have hcount : r'.cmd.todo r'.child + as.length ≤ cmd'.todo child' := hrest.2.2.2
    have hless := htodo.2.2.resolve_left (fun hne => hne hzero)
    rw [List.length_cons]
    omega

/-- A command that has ended is reported after finitely many calls. -/
theorem RunInv.finishes (h : RunInv flags r) (hfits : Fitting r.child) : Finishes timeout r := by
  intro code hstatus
  refine ⟨r.cmd.todo r.child, fun as r' hcalls hexec hover => ?_⟩
  obtain ⟨hinv, hfits', hstatus', hcount⟩ := h.counts hfits hstatus hcalls hexec hover
  refine ⟨by omega, settled r'.child, prompt_settled _, calm_settled timeout _, ?_⟩
  obtain ⟨q, hq⟩ : ∃ q, r'.cmd.cmdPoll timeout r'.child (settled r'.child) = some q :=
    hinv.good.call_returns hfits' hstatus'
  rw [step, if_neg (by simp [hover]), hq]
  rfl

/-! ## Conditions and rewriting -/

section

variable {ρ : Type} {regexec : Regexec ρ} {data : MatchCommandData ρ}

/-- A command matches by its status, by a line of its output, or by both. -/
theorem verdict_cases (data : MatchCommandData ρ) (found : Bool) (status : ℤ) :
    (verdict data found status = .matchTrue ∨ verdict data found status = .matchFalse) ∧
      (verdict data found status = .matchTrue ↔
        (data.ret ≠ -1 → data.ret = status) ∧ (data.re.isSome = true → found = true)) := by
  unfold verdict
  by_cases hret : data.ret = -1
  · have hre : data.re.isSome = true := data.given.resolve_left fun hne => hne hret
    cases found <;> simp [hret, hre]
  · by_cases hre : data.re = none
    · by_cases hstatus : data.ret = status
      · subst hstatus
        simp [hret, hre]
      · simp [hret, hre, hstatus]
    · have hsome : data.re.isSome = true := Option.isSome_iff_ne_none.mpr hre
      by_cases hstatus : data.ret = status
      · subst hstatus
        cases found <;> simp [hret, hsome]
      · cases found <;> simp [hret, hsome, hstatus]

/-- Some of the lines match. -/
theorem any_found_iff {ls : List (List Char)} (hre : data.re.isSome = true) :
    ls.any (data.found regexec) = true ↔
      ∀ re, data.re = some re → ∃ l ∈ ls, (reBlock regexec re l).1 = some true := by
  obtain ⟨re, hdata⟩ := Option.isSome_iff_exists.mp hre
  simp [MatchCommandData.found, hdata]

/-- The condition `command` judges the lines and the status of the command. -/
theorem RunInv.judges (h : RunInv flags r) (hflags : flags.cmdOut = data.re.isSome)
    (hexec : ∀ re, data.re = some re →
      ∀ l ∈ outputLines r.child.out.wrote, (reBlock regexec re l).1 ≠ none) :
    Judges regexec data r := by
  have hfaithful := h.faithful
  have hloop := hookLoop_eq regexec data h.calls
    (fun re hdata l hl => hexec re hdata l (hfaithful.out.subset hl))
    (fun hdata => by
      have hnull := h.null (by rw [hflags, hdata]; rfl)
      have hprefix := hfaithful.out
      rw [hnull.2] at hprefix
      exact List.prefix_nil.mp hprefix)
    false []
  rw [Bool.false_or] at hloop
  have hlines : r.results.filterMap Result.out = r.outLines := rfl
  rw [hlines] at hloop
  constructor
  · intro res tags hres
    rw [hres, Option.map_some] at hloop
    by_cases hstop : r.outLines.any (data.found regexec) = true ∧ data.ret = -1
    · -- the loop stops at a line that matches
      rw [if_pos hstop, Option.some_inj] at hloop
      have hsome : data.re.isSome = true := data.given.resolve_left fun hne => hne hstop.2
      have htrue : verdict data true 0 = .matchTrue :=
        (verdict_cases data true 0).2.mpr ⟨fun hne => absurd hstop.2 hne, fun _ => rfl⟩
      have hres' : res = .matchTrue := hloop.trans htrue
      refine ⟨.inl hres', fun _ => ⟨fun hne => absurd hstop.2 hne, fun re hdata => ?_⟩,
        fun _ => hres'⟩
      obtain ⟨l, hl, hmatch⟩ := (any_found_iff hsome).mp hstop.1 re hdata
      exact ⟨l, hfaithful.out.subset hl, hmatch⟩
    · rw [if_neg hstop] at hloop
      obtain ⟨v, hv, hverdict⟩ := Option.map_eq_some_iff.mp hloop.symm
      obtain ⟨code, hstatus, hcode, hout, -⟩ := hfaithful.ended v hv
      have hv' : v - 1 = code := by omega
      rw [hv', hout] at hverdict
      have hcases := verdict_cases data
        ((outputLines r.child.out.wrote).any (data.found regexec)) code
      dsimp only at hverdict
      rw [hverdict] at hcases
      refine ⟨hcases.1, hcases.2.trans (and_congr ?_ ?_)⟩
      · refine imp_congr_right fun _ => ⟨fun heq => ⟨code, hstatus, heq⟩, ?_⟩
        rintro ⟨code', hstatus', heq⟩
        rw [hstatus, Status.exited.injEq] at hstatus'
        rw [heq, hstatus']
      · refine ⟨fun hany re hdata => ?_, fun hall hsome => (any_found_iff hsome).mpr hall⟩
        have hsome : data.re.isSome = true := by rw [hdata]; rfl
        exact (any_found_iff hsome).mp (hany hsome) re hdata
  · intro hover
    have hsome := congrArg Option.isSome hloop
    rw [Option.isSome_map] at hsome
    rw [hsome]
    split_ifs
    · rfl
    · rw [Option.isSome_map, Option.isSome_iff_ne_none]
      exact hover

/-- A mail without a line is empty. -/
theorem mailOf_eq_nil {ls : List (List Char)} : mailOf ls = [] ↔ ls = [] := by
  cases ls with
  | nil => simp [mailOf]
  | cons l ls => simp [mailOf]

/-- The action `rewrite` makes the mail of the lines of the command. -/
theorem RunInv.rewrites (h : RunInv flags r) : Rewrites r := by
  have hfaithful := h.faithful
  have hloop : ∀ maxSize, rewriteLoop maxSize {} r.results =
      if maxSize < (mailOf r.outLines).length then some none
      else r.ended.map fun v =>
        if v = 1 ∧ mailOf r.outLines ≠ [] then
          some ({ data := mailOf r.outLines } : Mail Unit).withBody
        else none :=
    fun maxSize => rewriteLoop_eq h.calls (Nat.zero_le maxSize)
  constructor
  · intro maxSize md hmd
    rw [hloop] at hmd
    by_cases hover : maxSize < (mailOf r.outLines).length
    · rw [if_pos hover] at hmd
      cases hmd
    rw [if_neg hover] at hmd
    obtain ⟨v, hv, hnew⟩ := Option.map_eq_some_iff.mp hmd
    obtain ⟨code, hstatus, hcode, hout, -⟩ := hfaithful.ended v hv
    split_ifs at hnew with hone
    rw [Option.some_inj] at hnew
    have hzero : code = 0 := by
      apply Fin.ext
      show (code : ℕ) = 0
      omega
    rw [hzero] at hstatus
    refine ⟨hstatus, ?_⟩
    rw [← hnew, ← hout]
    rfl
  · intro maxSize hover hne hfit
    obtain ⟨code, -, -, hout, -⟩ := hfaithful.ended 1 hover
    have hmail : mailOf (outputLines r.child.out.wrote) ≠ [] := fun hnil =>
      hne (mailOf_eq_nil.mp hnil)
    rw [hloop, hout, if_neg (Nat.not_lt.mpr hfit), hover, Option.map_some, if_pos ⟨rfl, hmail⟩]
    exact ⟨_, rfl⟩

/-- In every run in which no call fails or kills the child, and whose outputs fit, `cmd_poll`
reports every line and then the exit code, a command condition is right, and a rewrite action has
the lines. -/
theorem reported_faithfully (regexec : Regexec ρ) (data : MatchCommandData ρ) {r₀ : Run}
    (hstart : start flags buf = some r₀)
    (hreach : Reach (step timeout) (Undisturbed timeout) r₀ r) (hfits : Fitting r.child) :
    Faithful r ∧ Finishes timeout r ∧
      (flags.cmdOut = data.re.isSome →
        (∀ re, data.re = some re →
          ∀ l ∈ outputLines r.child.out.wrote, (reBlock regexec re l).1 ≠ none) →
        Judges regexec data r) ∧
      Rewrites r := by
  have hinv : Fitting r.child → RunInv flags r :=
    hreach.invariant (I := fun r => Fitting r.child → RunInv flags r)
      (fun _ => runInv_start hstart) fun _ _ _ h hcalm hstep => runInv_step h hcalm hstep
  have h := hinv hfits
  exact ⟨h.faithful, h.finishes hfits, h.judges, h.rewrites⟩

end

/-- A text without NUL that is shorter than the longest line has no line that is too long. -/
theorem fits_of_short {s : List Char} (hnul : '\x00' ∉ s) (hlen : s.length < ioMaxlinelen) :
    Fits s :=
  ⟨hnul, fun _ hw _ => Nat.lt_of_le_of_lt hw.length_le hlen⟩

/-- A child that writes three lines and exits with 3. -/
def reports : List Event :=
  [.move (.writeOut ['a', '\r', '\n', 'b']), .move (.writeErr ['x', '\n']), .move (.exit 3),
    .call
      { poll := .ready {} { pollin := true } { pollin := true }
        out := { ready := ['a', '\r', '\n', 'b'], behind := .eof }
        err := { ready := ['x', '\n'], behind := .eof } },
    .call {}, .call {}, .call {}, .call {}]

/-- The run of that child. -/
def reported : Option Run :=
  (start { cmdOut := true, cmdOnce := true } []).bind fun r =>
    exec (guarded (step 900000) fun r e => decide (Undisturbed 900000 r e)) r reports

/-- Exit code 3 and a line with a `b` in it. -/
def asksForB : MatchCommandData (List Char) where
  ret := 3
  re := some ⟨['b'], ['b']⟩
  given := .inl (by decide)

theorem reported_faithfully_threeLines : ∃ r, reported = some r ∧ r.ended = some 4 ∧
    Faithful r ∧ Finishes 900000 r ∧ Judges wordExec asksForB r ∧ Rewrites r := by
  have hrun : reported.map (fun r => (r.ended, r.child.out.wrote, r.child.err.wrote))
      = some (some 4, ['a', '\r', '\n', 'b'], ['x', '\n']) := by
    decide +kernel
  obtain ⟨r, hr, hend⟩ := Option.map_eq_some_iff.mp hrun
  simp only [Prod.mk.injEq] at hend
  obtain ⟨hover, hout, herr⟩ := hend
  obtain ⟨r₀, hstart, hexec⟩ := Option.bind_eq_some_iff.mp hr
  have hreach : Reach (step 900000) (Undisturbed 900000) r₀ r :=
    reach_of_execGuarded (fun _ _ hguard => of_decide_eq_true hguard) hexec
  have hfits : Fitting r.child := by
    refine ⟨?_, ?_⟩
    · rw [hout]
      exact fits_of_short (by decide) (by decide)
    · rw [herr]
      exact fits_of_short (by decide) (by decide)
  obtain ⟨hfaithful, hfinishes, hjudges, hrewrites⟩ :=
    reported_faithfully wordExec asksForB hstart hreach hfits
  refine ⟨r, hr, hover, hfaithful, hfinishes, hjudges rfl ?_, hrewrites⟩
  rw [hout]
  rintro re hre
  obtain rfl := Option.some_inj.mp hre
  decide

/-! ## A child that is killed -/

/-- An io that is closed is found before anything is written. -/
theorem writeInput_closed {cmd : Cmd} {child : Child} {n : Written}
    (hclosed : cmd.ioIn.any (·.closed) = true) : cmd.writeInput child n = some (.ok cmd) := by
  rw [Option.any_eq_true] at hclosed
  obtain ⟨io, hio, hshut⟩ := hclosed
  refine if_pos ?_
  simp [Cmd.writing, hio, hshut]

/-- A pipe that was closed is found with the next call. -/
theorem Good.finds {cmd : Cmd} {child : Child} {outs errs : List (List Char)}
    (h : Good cmd child outs errs) (hclosed : cmd.anyClosed = true) :
    cmd.anyOpen = true ∧ ∃ s, cmd.beforePolln = some (.closed s) := by
  simp only [Cmd.anyClosed, Bool.or_eq_true, Option.any_eq_true] at hclosed
  refine ⟨?_, ?_⟩
  · simp only [Cmd.anyOpen, Bool.or_eq_true]
    rcases hclosed with (⟨i, hi, -⟩ | ⟨i, hi, -⟩) | ⟨i, hi, -⟩
    · exact .inl (.inl (by rw [hi]; rfl))
    · exact .inl (.inr (by rw [hi]; rfl))
    · exact .inr (by rw [hi]; rfl)
  · cases hbefore : cmd.beforePolln with
    | some polled =>
      rcases h.beforePolln hbefore with ⟨rfl, -⟩ | ⟨rfl, -⟩ | ⟨rfl, -⟩ <;> exact ⟨_, rfl⟩
    | none =>
      have hopen := beforePolln_none hbefore
      rcases hclosed with (⟨i, hi, hshut⟩ | ⟨i, hi, hshut⟩) | ⟨i, hi, hshut⟩
      · rw [hi, Option.any_some] at hopen
        exact absurd hshut (by simp [hopen.1])
      · exact absurd hshut (by simp [(beforePoll_none hopen.2.1 hi).2])
      · exact absurd hshut (by simp [(beforePoll_none hopen.2.2 hi).2])

/-- A call that finds a descriptor closed while the child runs kills the child. -/
theorem killed {cmd cmd' : Cmd} {child child' : Child} {outs errs : List (List Char)} {a : Answers}
    (h : Good cmd child outs errs) (hcalm : a.fails timeout = false)
    (hnot : ¬ Spares cmd child a) {x : Result}
    (hcall : cmd.cmdPoll timeout child a = some (x, cmd', child')) :
    child'.status = .signaled 15 := by
  obtain ⟨hclosed, hrunning⟩ := Classical.not_imp.mp hnot
  simp only [Cmd.cmdPoll, Option.bind_eq_bind, Option.bind_eq_some_iff] at hcall
  obtain ⟨written, hwrite, hcall⟩ := hcall
  obtain ⟨cmd₁, rfl, hwrites⟩ := writeInput_spec hcalm hwrite
  have hgood : Good cmd₁ (child.moves a.beforeWrite) outs errs := (h.moves _).writes hwrites
  have hclosed₁ : cmd₁.anyClosed = true := by
    by_cases hin : cmd.ioIn.any (·.closed) = true
    · -- nothing is written to a standard input that is closed
      rw [writeInput_closed hin] at hwrite
      cases hwrite
      exact hclosed
    · simp only [Cmd.anyClosed, Bool.or_eq_true] at hclosed ⊢
      rw [hwrites.out, hwrites.err]
      rcases hclosed with (hstdin | hout) | herr
      · exact absurd hstdin hin
      · exact .inl (.inr hout)
      · exact .inr herr
  obtain ⟨hany, s, hbefore⟩ := hgood.finds hclosed₁
  have hpoll : cmd₁.ioPolln timeout (child.moves a.beforeWrite) a
      = some (.closed s, cmd₁, child.moves a.beforeWrite) := by
    unfold Cmd.ioPolln
    rw [hbefore]
  have hkill : ((child.moves a.beforeWrite).moves a.beforeKill).kill.status = .signaled 15 := by
    rw [Child.Spared, not_or, not_not, Bool.not_eq_true] at hrunning
    unfold Child.kill
    rw [if_pos hrunning]
    rfl
  dsimp only at hcall
  rw [if_neg (by simp [hany]), hpoll] at hcall
  have hafter := (afterPolling_evolves hcall).1.status (by rw [hkill]; simp)
  rw [hafter, hkill]

/-- A child that has been killed has no exit code. -/
theorem killed_never_exits {sig : ℕ} (hkilled : r.child.status = .signaled sig)
    (hgoing : r.ended = none) (hreach : Reach (step timeout) anyStep r r') {v : ℤ}
    (hover : r'.ended = some v) : v < 0 := by
  have hinv : r'.child.status = .signaled sig ∧ ∀ v, r'.ended = some v → v < 0 := by
    refine hreach.invariant (I := fun r => r.child.status = .signaled sig ∧
      ∀ v, r.ended = some v → v < 0) ⟨hkilled, by simp [hgoing]⟩ fun s e s' hs _ hstep => ?_
    cases e with
    | move m =>
      obtain rfl := Option.some_inj.mp hstep
      refine ⟨?_, hs.2⟩
      show (s.child.moves [m]).status = _
      rw [Child.moves_ended (by rw [hs.1]; nofun)]
      exact hs.1
    | call a =>
      simp only [step] at hstep
      split_ifs at hstep with hnone
      rw [not_not] at hnone
      obtain ⟨⟨x, cmd', child'⟩, hcall, rfl⟩ := Option.map_eq_some_iff.mp hstep
      obtain ⟨hevolves, hexit⟩ := cmdPoll_evolves hcall
      have hstatus : child'.status = .signaled sig := by
        rw [hevolves.status (by rw [hs.1]; nofun), hs.1]
      refine ⟨hstatus, fun v hv => ?_⟩
      rw [ended_append hnone] at hv
      split_ifs at hv with hzero
      have hret : x.ret = v := Option.some_inj.mp hv
      have hne : x.ret ≠ 0 := hzero
      by_contra hnot
      obtain ⟨code, hcode⟩ := hexit (show 0 < x.ret by omega)
      rw [hstatus] at hcode
      cases hcode
  exact hinv.2 v hover

/-- A child that closes its standard output, and would exit with 3 a little later. -/
def closesOutput : List Event :=
  [.move (.close .out), .call { poll := .ready {} { pollhup := true } {} },
    .call { poll := .interrupted }, .move (.exit 3),
    .call { poll := .ready {} {} { pollhup := true } }, .call {}]

/-- A step in which no call fails. -/
def Calm (timeout : ℕ) (_ : Run) : Event → Prop
  | .move _ => True
  | .call a => a.fails timeout = false

instance (timeout : ℕ) (r : Run) : DecidablePred (Calm timeout r)
  | .move _ => inferInstanceAs (Decidable True)
  | .call _ => inferInstanceAs (Decidable (_ = _))

/-- What becomes of that child. -/
def killedChild : Child where
  status := .signaled 15
  stdin := false
  out := { isOpen := false }
  err := { isOpen := false }

/-- The child is killed, and `cmd_poll` returns -1. -/
theorem closesOutput_killed : ∃ r₀ r,
    start { cmdOut := true, cmdOnce := true } [] = some r₀ ∧
      Reach (step 900000) (Calm 900000) r₀ r ∧ Fitting r.child ∧ r.ended = some (-1) ∧
      ¬ Faithful r := by
  have hrun : (((start { cmdOut := true, cmdOnce := true } []).bind fun r =>
      exec (guarded (step 900000) fun r e => decide (Calm 900000 r e)) r closesOutput).map
        fun r => (r.ended, r.child)) =
      some (some (-1), killedChild) := by
    decide +kernel
  obtain ⟨r, hr, hend⟩ := Option.map_eq_some_iff.mp hrun
  obtain ⟨hover, hchild⟩ := Prod.mk.injEq .. ▸ hend
  obtain ⟨r₀, hstart, hexec⟩ := Option.bind_eq_some_iff.mp hr
  refine ⟨r₀, r, hstart, reach_of_execGuarded (fun _ _ h => of_decide_eq_true h) hexec, ?_, hover,
    fun hfaithful => ?_⟩
  · rw [hchild]
    exact ⟨fits_of_short (by decide) (by decide), fits_of_short (by decide) (by decide)⟩
  · obtain ⟨code, hstatus, -⟩ := hfaithful.ended _ hover
    rw [hchild] at hstatus
    cases hstatus

end Fdm.Command
