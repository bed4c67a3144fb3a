import Fdm.Command.Invariant

/-!
# The end of a command

Once the child has exited, every call of `cmd_poll` that is not interrupted gets further: it
returns a line, finds out that a descriptor is closed, frees one, or returns the exit code. What
is left to do is counted by `Cmd.todo`.
-/

namespace Fdm.Command

open Lib.Lines Io

variable {cmd cmd' : Cmd} {child child' : Child} {outs errs : List (List Char)} {a : Answers}
  {timeout : ℕ} {code : Fin 256}

/-- The calls are not interrupted: `poll` reports events, `read` finds the end, and `waitpid`
the child. -/
def Answers.prompt (a : Answers) : Bool :=
  (a.poll matches .ready _ _ _) && (a.out.behind matches .eof) && (a.err.behind matches .eof) &&
    (a.wait matches .child)

/-- The end of a pipe is noticed. -/
theorem afterPoll_closed {i i' : Io} {p p' : Pipe} {r : Revents} {reads : Reads}
    (hshut : p.isOpen = false) (hshows : p.shows r = true) (heof : reads.behind = .eof)
    (h : afterPoll i r p reads = some (i', p')) : i'.closed = true := by
  unfold afterPoll at h
  by_cases hhup : (r.pollerr || r.pollnval || (r.pollhup && !r.pollin)) = true
  · rw [if_pos hhup] at h
    cases h
    rfl
  rw [if_neg hhup] at h
  have hin : r.pollin = true := by
    by_contra hno
    rw [Bool.not_eq_true] at hno
    simp only [Pipe.shows, Bool.and_eq_true] at hshows
    simp only [hno, Bool.not_false, Bool.and_true, Bool.or_eq_true, not_or] at hhup
    by_cases hunread : p.unread = []
    · simp [hunread, hshut, hno, hhup.2] at hshows
    · simp [hunread, hno] at hshows
  rw [if_pos hin] at h
  split_ifs at h with hpossible
  simp only [Option.bind_eq_bind, Option.bind_eq_some_iff] at h
  obtain ⟨⟨f, j⟩, hfill, h⟩ := h
  have hf : f = filled reads.behind := by
    obtain ⟨j', hfill', -⟩ := fill_spec i reads.ready reads.behind (by simp [heof])
      (Nat.lt_succ_self _)
    rw [hfill'] at hfill
    cases hfill
    rfl
  rw [hf, heof] at h
  cases h
  rfl

/-- A pointer whose io is noticed to be closed. -/
theorem PollsPtr.todo {io io' : Option Io} {p p' : Pipe} (h : PollsPtr io p io' p')
    (hopen : ∀ i, io = some i → i.closed = false) (hclosed : ∀ i, io' = some i → i.closed = true) :
    ioTodo io' p' + (if io.isSome then 1 else 0) = ioTodo io p := by
  cases h with
  | null => rfl
  | @io i i' p p' hpolls =>
    simp only [ioTodo, Option.elim_some, hopen i rfl, hclosed i' rfl, hpolls.bytes,
      Option.isSome_some, if_true, Bool.false_eq_true, if_false]
    omega

/-- A pipe that the command has closed is found closed by the call that polls it. -/
theorem afterPollPtr_closed {io io' : Option Io} {p p' : Pipe} {r : Revents} {reads : Reads}
    (hshut : p.isOpen = false) (hshows : io ≠ none → p.shows r = true) (heof : reads.behind = .eof)
    (h : afterPollPtr io r p reads = some (io', p')) {i : Io} (hi : io' = some i) :
    i.closed = true := by
  cases io with
  | none =>
    cases h
    cases hi
  | some j =>
    obtain ⟨q, hq, heq⟩ := Option.map_eq_some_iff.mp h
    obtain ⟨rfl, rfl⟩ := Prod.mk.injEq .. ▸ heq
    obtain rfl := Option.some_inj.mp hi
    exact afterPoll_closed hshut (hshows nofun) heof hq

/-- The standard input of a child that has ended is noticed to be closed. -/
theorem Inlet.afterPoll_closed (io : Inlet) {r : Revents} (hstdin : child.stdin = false)
    (hshows : child.showsStdin r = true) : (io.afterPoll r).closed = true := by
  simp only [Child.showsStdin, hstdin, Bool.and_eq_true, Bool.not_eq_true', Bool.not_false,
    beq_iff_eq] at hshows
  have hhup : (r.pollerr || r.pollnval || (r.pollhup && !r.pollin)) = true := by
    rw [hshows.1.1, hshows.1.2, Bool.or_false, Bool.not_false, Bool.and_true]
    exact hshows.2
  rw [Inlet.afterPoll, if_pos hhup]

/-- A command that has ended has closed its pipes. -/
theorem shut_of_exited (h : Good cmd child outs errs) (hstatus : child.status = .exited code) :
    child.stdin = false ∧ child.out.isOpen = false ∧ child.err.isOpen = false :=
  h.sane.shut (by simp [hstatus])

/-- A command that has ended does nothing more. -/
theorem moves_exited (hstatus : child.status = .exited code) (ms : List Move) :
    child.moves ms = child :=
  Child.moves_ended (by simp [hstatus]) ms

/-- A poll that is not interrupted notices that every descriptor is closed. -/
theorem Good.todo_polled (h : Good cmd child outs errs) (hcalm : a.fails timeout = false)
    (hprompt : a.prompt = true) (hstatus : child.status = .exited code)
    (hany : cmd.anyOpen = true) (hfits : Fitting child)
    (hcase : PollCase cmd child a .done cmd' child') :
    child'.status = .exited code ∧ Fitting child' ∧ cmd'.todo child' < cmd.todo child := by
  simp only [Answers.prompt, Bool.and_eq_true] at hprompt
  have hshut := shut_of_exited h hstatus
  cases hcase with
  | quiet hopen hquiet =>
    cases hanswer : a.poll with
    | ready i o e => exact absurd hanswer (hquiet i o e)
    | timedOut cause => simp [hanswer] at hprompt
    | interrupted => simp [hanswer] at hprompt
    | again => simp [hanswer] at hprompt
    | failure cause => simp [hanswer] at hprompt
  | ready stdin out err ioOut ioErr pipeOut pipeErr c c' hopen hanswer hshows hc hout hc' herr =>
    have hready := polls_ready hcalm hopen hshows hc hout
    have hpolls := hready.2 c' ioErr pipeErr hc' herr
    have hio := beforePolln_none hopen
    have heofOut : a.out.behind = .eof := by
      cases hbehind : a.out.behind <;> rw [hbehind] at hprompt <;> first | rfl | simp at hprompt
    have heofErr : a.err.behind = .eof := by
      cases hbehind : a.err.behind <;> rw [hbehind] at hprompt <;> first | rfl | simp at hprompt
    rw [moves_exited hstatus] at hshows hc
    rw [moves_exited hstatus] at hc
    subst hc
    have hstatus' : { c with out := pipeOut }.status = .exited code := hstatus
    rw [moves_exited hstatus'] at hc'
    subst hc'
    simp only [Cmd.shows, Bool.and_eq_true, Bool.or_eq_true, Option.isNone_iff_eq_none] at hshows
    -- each descriptor that is open is one step less
    have hstdin : (cmd.ioIn.map (Inlet.afterPoll · stdin)).elim 0
          (fun io => if io.closed then 1 else 2) + (if cmd.ioIn.isSome then 1 else 0)
        = cmd.ioIn.elim 0 fun io => if io.closed then 1 else 2 := by
      cases hin : cmd.ioIn with
      | none => rfl
      | some io =>
        have hnot : io.closed = false := by
          rw [hin] at hio
          exact hio.1
        have hnow := io.afterPoll_closed hshut.1 (hshows.1.1.resolve_left (by simp [hin]))
        simp [hnot, hnow]
    have htodoOut := hready.1.todo (fun i hi => (beforePoll_none hio.2.1 hi).2)
      fun i hi => afterPollPtr_closed hshut.2.1 (fun hne => hshows.1.2.resolve_left hne) heofOut
        hout hi
    have htodoErr := hpolls.todo (fun i hi => (beforePoll_none hio.2.2 hi).2)
      fun i hi => afterPollPtr_closed hshut.2.2 (fun hne => hshows.2.resolve_left hne) heofErr
        herr hi
    refine ⟨hstatus, ⟨?_, ?_⟩, ?_⟩
    · show Fits pipeOut.wrote
      rw [hready.1.wrote]
      exact hfits.out
    · show Fits pipeErr.wrote
      rw [hpolls.wrote]
      exact hfits.err
    have hsome : 0 < (if cmd.ioIn.isSome then 1 else 0) + (if cmd.ioOut.isSome then 1 else 0)
        + (if cmd.ioErr.isSome then 1 else 0) := by
      simp only [Cmd.anyOpen, Bool.or_eq_true] at hany
      rcases hany with (hany | hany) | hany <;> rw [if_pos hany] <;> omega
    simp only [Cmd.todo]
    have hpipe : c.err = { c with out := pipeOut }.err := rfl
    rw [hpipe]
    omega

/-- An io that is found closed is freed, unless there is a line to read in it. -/
theorem Good.todo_closeFound (h : Good cmd child outs errs) {s : Stream}
    (hbefore : cmd.beforePolln = some (.closed s)) :
    (cmd.closeFound s).todo child < cmd.todo child ∨ cmd.closeFound s = cmd ∧
      ∃ i, (cmd.ioOut = some i ∨ cmd.ioErr = some i) ∧ i.closed = true ∧ i.rd.size ≠ 0 := by
  have hclosed := h.beforePolln hbefore
  cases s with
  | stdin =>
    obtain ⟨io, hio, hshut⟩ : ∃ io, cmd.ioIn = some io ∧ io.closed = true := by simpa using hclosed
    refine .inl ?_
    simp only [Cmd.todo, Cmd.closeFound, hio, Option.elim_none, Option.elim_some, hshut, if_true]
    omega
  | out =>
    obtain ⟨i, hi, hshut⟩ : ∃ i, cmd.ioOut = some i ∧ i.closed = true := by simpa using hclosed
    by_cases hsize : i.rd.size = 0
    · refine .inl ?_
      simp only [Cmd.todo, Cmd.closeFound, hi, Option.all_some, hsize, decide_true, if_true, ioTodo,
        Option.elim_none, Option.elim_some, hshut]
      omega
    · exact .inr ⟨by simp [Cmd.closeFound, hi, hsize], i, .inl hi, hshut, hsize⟩
  | err =>
    obtain ⟨i, hi, hshut⟩ : ∃ i, cmd.ioErr = some i ∧ i.closed = true := by simpa using hclosed
    by_cases hsize : i.rd.size = 0
    · refine .inl ?_
      simp only [Cmd.todo, Cmd.closeFound, hi, Option.all_some, hsize, decide_true, if_true, ioTodo,
        Option.elim_none, Option.elim_some, hshut]
      omega
    · exact .inr ⟨by simp [Cmd.closeFound, hi, hsize], i, .inr hi, hshut, hsize⟩

/-- `cmd_poll` behind the call of `io_polln`, once the child has exited. -/
theorem Good.todo_afterPolling (h : Good cmd child outs errs) (hfits : Fitting child)
    (hprompt : a.prompt = true) (hstatus : child.status = .exited code) {r : Result}
    (hafter : cmd.afterPolling timeout child a = some (r, cmd', child')) :
    child' = child ∧ (r.ret ≠ 0 ∨ cmd.anyOpen = true ∧ cmd'.todo child ≤ cmd.todo child ∧
      ((∃ i, (cmd.ioOut = some i ∨ cmd.ioErr = some i) ∧ i.closed = true ∧ i.rd.size ≠ 0) →
        cmd'.todo child < cmd.todo child)) := by
  simp only [Cmd.afterPolling, Option.bind_eq_bind, Option.bind_eq_some_iff] at hafter
  obtain ⟨⟨line, cmd₁⟩, hread, hafter⟩ := hafter
  have hlined := h.readLine hfits hread
  cases line with
  | some x =>
    cases hafter
    have hfewer := hlined.fewer rfl
    refine ⟨rfl, .inr ⟨?_, Nat.le_of_lt hfewer, fun _ => hfewer⟩⟩
    -- nothing is read where nothing is open
    by_contra hnone
    have hdrained := drained_of_not_anyOpen (Bool.eq_false_iff.mpr hnone)
    simp [Cmd.todo, hdrained.stdin, hdrained.out, hdrained.err, ioTodo] at hfewer
  | none =>
    have hsame := hlined.same rfl
    subst hsame
    dsimp only at hafter
    by_cases hany : cmd₁.anyOpen = true
    · rw [if_pos hany] at hafter
      cases hafter
      exact ⟨rfl, .inr ⟨hany, Nat.le_refl _,
        fun hleft => absurd (hlined.some hleft) Bool.false_ne_true⟩⟩
    · rw [if_neg hany] at hafter
      simp only [Option.bind_eq_some_iff] at hafter
      obtain ⟨x, hwait, hafter⟩ := hafter
      cases hafter
      refine ⟨moves_exited hstatus _, .inl ?_⟩
      rw [moves_exited hstatus] at hwait
      simp only [Answers.prompt, Bool.and_eq_true] at hprompt
      have hchild : a.wait = .child := by
        cases hanswer : a.wait <;> rw [hanswer] at hprompt <;> first | rfl | simp at hprompt
      rw [hchild, waitChild, hstatus] at hwait
      cases hwait
      show (1 + (code : ℤ)) ≠ 0
      omega

/-- A call that writes leaves no more to do. -/
theorem Writes.todo (h : Writes cmd cmd') (child : Child) : cmd'.todo child ≤ cmd.todo child := by
  rw [Cmd.todo, Cmd.todo, h.out, h.err]
  rcases h.stdin with hstdin | hstdin | ⟨io, hio, hstdin⟩
  · rw [hstdin]
  · rw [hstdin, Option.elim_none]
    omega
  · rw [hstdin, hio, Option.elim_some, Option.elim_some]

/-- Once the child has exited, a call that is not interrupted gets further. -/
theorem Good.todo_call (h : Good cmd child outs errs) (hcalm : a.fails timeout = false)
    (hprompt : a.prompt = true) (hfits : Fitting child) (hstatus : child.status = .exited code)
    {r : Result} (hcall : cmd.cmdPoll timeout child a = some (r, cmd', child')) :
    child'.status = .exited code ∧ Fitting child' ∧
      (r.ret ≠ 0 ∨ cmd'.todo child' < cmd.todo child) := by
  simp only [Cmd.cmdPoll, Option.bind_eq_bind, Option.bind_eq_some_iff,
    moves_exited hstatus] at hcall
  obtain ⟨written, hwrite, hcall⟩ := hcall
  obtain ⟨cmd₁, rfl, hwrites⟩ := writeInput_spec hcalm hwrite
  have hgood : Good cmd₁ child outs errs := h.writes hwrites
  have hle := hwrites.todo child
  dsimp only at hcall
  by_cases hany : cmd₁.anyOpen = false
  · rw [if_pos hany] at hcall
    have hafter := hgood.todo_afterPolling hfits hprompt hstatus hcall
    rw [hafter.1]
    refine ⟨hstatus, hfits, .inl ?_⟩
    rcases hafter.2 with hret | hmore
    · exact hret
    · exact absurd hmore.1 (by simp [hany])
  rw [if_neg hany] at hcall
  simp only [Option.bind_eq_some_iff] at hcall
  obtain ⟨⟨polled, cmd₂, child₂⟩, hpoll, hcall⟩ := hcall
  have hcase := hgood.polln_cases hcalm hpoll
  have hpolled := hgood.polled hcalm hcase
  cases hpolled' : polled with
  | failed cause =>
    rw [hpolled'] at hcase
    cases hcase
  | done =>
    rw [hpolled'] at hcase hcall
    have htodo := hgood.todo_polled hcalm hprompt hstatus (by simpa using hany) hfits hcase
    have hafter := hpolled.todo_afterPolling htodo.2.1 hprompt htodo.1 hcall
    rw [hafter.1]
    refine ⟨htodo.1, htodo.2.1, hafter.2.imp_right fun hmore => ?_⟩
    omega
  | closed s =>
    rw [hpolled'] at hcase hcall
    cases hcase with
    | closed s hclosed =>
      have hspared : child.kill = child := Child.kill_spared _ (.inl (by simp [hstatus]))
      dsimp only at hcall
      rw [moves_exited hstatus, hspared] at hcall
      have hafter := (hgood.closeFound hclosed).todo_afterPolling hfits hprompt hstatus hcall
      rw [hafter.1]
      refine ⟨hstatus, hfits, hafter.2.imp_right fun hmore => ?_⟩
      rcases hgood.todo_closeFound hclosed with hfreed | ⟨hsame, hleft⟩
      · omega
      · rw [hsame] at hmore
        have hline := hmore.2.2 hleft
        omega

/-! ## There is always a next call -/

/-- The events of a pipe that is closed. -/
def Pipe.events (p : Pipe) : Revents :=
  if p.unread ≠ [] then { pollin := true, pollhup := true } else { pollhup := true }

/-- What the system calls return once the child has ended. -/
def settled (child : Child) : Answers where
  write := .pipe
  poll := .ready { pollerr := true } child.out.events child.err.events
  out := { ready := child.out.unread, behind := .eof }
  err := { ready := child.err.unread, behind := .eof }
  wait := .child

theorem prompt_settled (child : Child) : (settled child).prompt = true := rfl

theorem calm_settled (timeout : ℕ) (child : Child) : (settled child).fails timeout = false := by
  simp [Answers.fails, settled]

theorem shows_events {p : Pipe} (hshut : p.isOpen = false) : p.shows p.events = true := by
  unfold Pipe.shows Pipe.events
  split_ifs with hunread <;> simp [hshut]

/-- `io_readline2` always returns. -/
theorem readline2_returns {io : Io} (heol : Eol io.eol) (herror : io.error = none) :
    ∃ q, io.readline2 = some q := by
  cases hcut : (cutter io.eol heol).cut io.rd.contents with
  | some q =>
    obtain ⟨io', hline, -⟩ := readline2_line heol herror hcut
    exact ⟨_, hline⟩
  | none =>
    by_cases hmax : ioMaxlinelen ≤ io.rd.size
    · exact ⟨_, readline2_over heol herror hcut hmax⟩
    rw [Nat.not_le] at hmax
    by_cases hlast : io.closed = true ∧ io.eol.length ≤ io.rd.size
    · obtain ⟨io', hline, -⟩ := readline2_last heol herror hcut hmax hlast.1 hlast.2
      exact ⟨_, hline⟩
    · refine ⟨_, readline2_wait heol herror hcut hmax ?_⟩
      by_cases hclosed : io.closed = true
      · exact .inr (Nat.not_le.mp fun hle => hlast ⟨hclosed, hle⟩)
      · exact .inl (Bool.eq_false_iff.mpr hclosed)

/-- Looking for a line always gives an answer. -/
theorem nextLine_returns {io : Option Io} {p : Pipe} {ds : List (List Char)} (h : Flow io p ds) :
    ∃ q, nextLine io = some q := by
  cases io with
  | none => exact ⟨_, rfl⟩
  | some i =>
    have huse := h.usable i rfl
    obtain ⟨q, hq⟩ := readline2_returns (.inl huse.1) huse.2.1
    exact ⟨(q.1.map chomp, some q.2), by rw [nextLine, hq]; rfl⟩

/-- So does looking at a pipe behind the poll. -/
theorem afterPoll_returns {i : Io} {p : Pipe} (hshut : p.isOpen = false) :
    ∃ q, afterPoll i p.events p { ready := p.unread, behind := .eof } = some q := by
  unfold afterPoll
  split_ifs with hclosed hin hpossible
  · exact ⟨_, rfl⟩
  · have hyes : Reads.possible { ready := p.unread, behind := .eof } p = true := by
      simp [Reads.possible, hshut]
    exact absurd hpossible (by simp [hyes])
  · obtain ⟨io, hfill, -⟩ := fill_spec i p.unread .eof (fun _ h => by cases h) (Nat.lt_succ_self _)
    exact ⟨_, by rw [hfill]; rfl⟩
  · exact ⟨_, rfl⟩

theorem afterPollPtr_returns (io : Option Io) {p : Pipe} (hshut : p.isOpen = false) :
    ∃ q, afterPollPtr io p.events p { ready := p.unread, behind := .eof } = some q := by
  cases io with
  | none => exact ⟨_, rfl⟩
  | some i =>
    obtain ⟨q, hq⟩ := afterPoll_returns hshut
    exact ⟨(some q.1, q.2), by rw [afterPollPtr, hq]; rfl⟩

/-- One call for a line gives an answer. -/
theorem Good.readLine_returns (h : Good cmd child outs errs) : ∃ q, cmd.readLine = some q := by
  obtain ⟨⟨err, ioErr⟩, herr⟩ := nextLine_returns h.err
  obtain ⟨⟨out, ioOut⟩, hout⟩ := nextLine_returns h.out
  unfold Cmd.readLine
  rw [herr]
  simp only [Option.bind_eq_bind, Option.bind_some]
  split_ifs
  · exact ⟨_, rfl⟩
  · rw [hout]
    exact ⟨_, rfl⟩

theorem Good.afterPolling_returns (h : Good cmd child outs errs)
    (hstatus : child.status = .exited code) (hwait : a.wait = .child) :
    ∃ q, cmd.afterPolling timeout child a = some q := by
  obtain ⟨⟨line, cmd₁⟩, hread⟩ := h.readLine_returns
  unfold Cmd.afterPolling
  rw [hread]
  simp only [Option.bind_eq_bind, Option.bind_some]
  cases line with
  | some r => exact ⟨_, rfl⟩
  | none =>
    dsimp only
    split_ifs
    · exact ⟨_, rfl⟩
    · rw [moves_exited hstatus, hwait, waitChild, hstatus]
      exact ⟨_, rfl⟩

/-- One call of `io_polln` gives an answer when the command has ended. -/
theorem Good.ioPolln_returns (h : Good cmd child outs errs)
    (hstatus : child.status = .exited code) :
    ∃ q, cmd.ioPolln timeout child (settled child) = some q := by
  have hshut := shut_of_exited h hstatus
  unfold Cmd.ioPolln
  cases hbefore : cmd.beforePolln with
  | some polled => exact ⟨_, rfl⟩
  | none =>
    have hshows : cmd.shows child { pollerr := true } child.out.events child.err.events = true := by
      simp [Cmd.shows, Child.showsStdin, hshut.1, shows_events hshut.2.1, shows_events hshut.2.2]
    obtain ⟨⟨ioOut, pipeOut⟩, hout⟩ := afterPollPtr_returns cmd.ioOut hshut.2.1
    obtain ⟨⟨ioErr, pipeErr⟩, herr⟩ := afterPollPtr_returns cmd.ioErr hshut.2.2
    have hio := beforePolln_none hbefore
    have hpollsOut := afterPollPtr_spec hio.2.1
      (fun _ => told_of_shows (shows_events hshut.2.1)) (by simp) hout
    have hpollsErr := afterPollPtr_spec hio.2.2
      (fun _ => told_of_shows (shows_events hshut.2.2)) (by simp) herr
    have hmoves : ∀ c : Child, c.moves [] = c := fun _ => rfl
    simp only [settled, hmoves, if_pos hshows, Cmd.afterPolln, hout, herr, hpollsOut.error,
      hpollsErr.error, Option.bind_eq_bind, Option.bind_some]
    exact ⟨_, rfl⟩

/-- Once the child has exited, `cmd_poll` can be called again. -/
theorem Good.call_returns (h : Good cmd child outs errs) (hfits : Fitting child)
    (hstatus : child.status = .exited code) :
    ∃ q, cmd.cmdPoll timeout child (settled child) = some q := by
  have hshut := shut_of_exited h hstatus
  have hcalm := calm_settled timeout child
  have hwrite : ∃ w, cmd.writeInput child (settled child).write = some w := by
    show ∃ w, cmd.writeInput child .pipe = some w
    unfold Cmd.writeInput
    split_ifs with hwriting hpossible
    · exact ⟨_, rfl⟩
    · simp [Written.possible, hshut.1] at hpossible
    · exact ⟨_, rfl⟩
  obtain ⟨w, hwrite⟩ := hwrite
  obtain ⟨cmd₁, rfl, hwrites⟩ := writeInput_spec hcalm hwrite
  have hgood : Good cmd₁ child outs errs := h.writes hwrites
  simp only [Cmd.cmdPoll, moves_exited hstatus, Option.bind_eq_bind]
  rw [hwrite, Option.bind_some]
  dsimp only
  by_cases hany : cmd₁.anyOpen = false
  · rw [if_pos hany]
    exact hgood.afterPolling_returns hstatus rfl
  rw [if_neg hany]
  obtain ⟨⟨polled, cmd₂, child₂⟩, hpoll⟩ :
      ∃ q, cmd₁.ioPolln timeout child (settled child) = some q := hgood.ioPolln_returns hstatus
  have hcase := hgood.polln_cases hcalm hpoll
  rw [hpoll, Option.bind_some]
  cases hpolled : polled with
  | failed cause =>
    rw [hpolled] at hcase
    cases hcase
  | done =>
    rw [hpolled] at hcase
    have htodo := hgood.todo_polled hcalm (prompt_settled child) hstatus (by simpa using hany) hfits
      hcase
    exact (hgood.polled hcalm hcase).afterPolling_returns htodo.1 rfl
  | closed s =>
    rw [hpolled] at hcase
    cases hcase with
    | closed s hclosed =>
      have hspared : child.kill = child := Child.kill_spared _ (.inl (by simp [hstatus]))
      dsimp only
      rw [moves_exited hstatus, hspared]
      exact (hgood.closeFound hclosed).afterPolling_returns hstatus rfl

end Fdm.Command
