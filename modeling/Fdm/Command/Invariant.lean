import Fdm.Command.Flow

/-!
# One call of `cmd_poll`

What holds between the calls of `cmd_poll`: both streams flow, and nobody has killed the child.

* `Pipe.Evolves` is what a child does to a pipe, at any time;
* `poll_cases` says all that `io_polln` can do when no call fails;
* `Good.call` is what a call of `cmd_poll` does to the streams and what it returns.
-/

namespace Fdm.Command

open Lib.Lines Io

/-! ## Moves of the child -/

/-- More has been written to a pipe, unless it was closed. -/
structure Pipe.Grows (p q : Pipe) : Prop where
  wrote : p.wrote <+: q.wrote
  shut : p.isOpen = false → q.isOpen = false ∧ q.wrote = p.wrote

theorem Pipe.Grows.refl (p : Pipe) : p.Grows p := ⟨List.prefix_refl _, fun h => ⟨h, rfl⟩⟩

theorem Pipe.Grows.trans {p q q' : Pipe} (h : p.Grows q) (h' : q.Grows q') : p.Grows q' := by
  refine ⟨h.wrote.trans h'.wrote, fun hshut => ?_⟩
  have hmid := h.shut hshut
  have hend := h'.shut hmid.1
  exact ⟨hend.1, hend.2.trans hmid.2⟩

/-- What the child does to a pipe. -/
inductive Pipe.Evolves (p : Pipe) : Pipe → Prop
  | refl : Evolves p p
  | write {q : Pipe} (h : Evolves p q) (s : List Char) : Evolves p (q.write s)
  | close {q : Pipe} (h : Evolves p q) : Evolves p q.close

namespace Pipe.Evolves

variable {p q q' : Pipe}

theorem trans (h : p.Evolves q) (h' : q.Evolves q') : p.Evolves q' := by
  induction h' with
  | refl => exact h
  | write _ s ih => exact ih.write s
  | close _ ih => exact ih.close

/-- What was read and what is still to be read does not depend on what comes later. -/
theorem flow (h : p.Evolves q) {io : Option Io} {ds : List (List Char)} (hflow : Flow io p ds) :
    Flow io q ds := by
  induction h with
  | refl => exact hflow
  | write _ s ih => exact ih.write s
  | close _ ih => exact ih.close

/-- What `poll` has told of a pipe stays true. -/
theorem told (h : p.Evolves q) {r : Revents} (htold : Told r p) : Told r q := by
  induction h with
  | refl => exact htold
  | write _ s ih => exact ih.write s
  | close _ ih => exact ih.close

/-- A pipe that evolves grows. -/
theorem grows (h : p.Evolves q) : p.Grows q := by
  induction h with
  | refl => exact .refl p
  | @write q _ s ih =>
    refine ih.trans ?_
    unfold Pipe.write
    split_ifs with hopen
    · exact ⟨List.prefix_append _ _, fun hshut => absurd hopen (by simp [hshut])⟩
    · exact .refl q
  | close _ ih => exact ih.trans ⟨List.prefix_refl _, fun _ => ⟨rfl, rfl⟩⟩

end Pipe.Evolves

namespace Child

variable (c : Child)

theorem ended_out (status : Status) : c.out.Evolves (c.ended status).out := .close .refl

theorem ended_err (status : Status) : c.err.Evolves (c.ended status).err := .close .refl

/-- Both pipes evolve in a move of the child. -/
theorem move_evolves (m : Move) :
    c.out.Evolves (c.move m).out ∧ c.err.Evolves (c.move m).err := by
  unfold move
  split_ifs with hended
  · exact ⟨.refl, .refl⟩
  cases m with
  | writeOut s => exact ⟨.write .refl s, .refl⟩
  | writeErr s => exact ⟨.refl, .write .refl s⟩
  | close s =>
    cases s with
    | stdin => exact ⟨.refl, .refl⟩
    | out => exact ⟨.close .refl, .refl⟩
    | err => exact ⟨.refl, .close .refl⟩
  | sigterm caught => exact ⟨.refl, .refl⟩
  | exit code => exact ⟨c.ended_out _, c.ended_err _⟩

/-- And in several. -/
theorem moves_evolves (ms : List Move) :
    c.out.Evolves (c.moves ms).out ∧ c.err.Evolves (c.moves ms).err := by
  induction ms generalizing c with
  | nil => exact ⟨.refl, .refl⟩
  | cons m ms ih =>
    have hmove := c.move_evolves m
    have hmoves := ih (c.move m)
    exact ⟨hmove.1.trans hmoves.1, hmove.2.trans hmoves.2⟩

/-- It does not die of `SIGTERM`. -/
def Spared : Prop := c.status ≠ .running ∨ c.catches = true

/-- A child that is spared is not changed by `kill`. -/
theorem kill_spared (h : c.Spared) : c.kill = c := by
  refine if_neg fun hkilled => ?_
  rcases h with h | h
  · exact h hkilled.1
  · exact absurd h (by simp [hkilled.2])

/-- The child has not been killed, and if it has ended its descriptors are closed. -/
structure Sane : Prop where
  alive : ∀ sig, c.status ≠ .signaled sig
  shut : c.status ≠ .running → c.stdin = false ∧ c.out.isOpen = false ∧ c.err.isOpen = false

variable {c}

/-- A move leaves a sane child. -/
theorem Sane.move (h : c.Sane) (m : Move) : (c.move m).Sane := by
  unfold Child.move
  split_ifs with hended
  · exact h
  have hrunning : c.status = .running := not_not.mp hended
  cases m with
  | exit code => exact ⟨fun _ => nofun, fun _ => ⟨rfl, rfl, rfl⟩⟩
  | close s => cases s <;> exact ⟨h.alive, fun hne => absurd hrunning hne⟩
  | writeOut s => exact ⟨h.alive, fun hne => absurd hrunning hne⟩
  | writeErr s => exact ⟨h.alive, fun hne => absurd hrunning hne⟩
  | sigterm caught => exact ⟨h.alive, fun hne => absurd hrunning hne⟩

theorem Sane.moves (h : c.Sane) (ms : List Move) : (c.moves ms).Sane := by
  induction ms generalizing c with
  | nil => exact h
  | cons m ms ih => exact ih (h.move m)

/-- A child that has ended does not move. -/
theorem moves_ended (h : c.status ≠ .running) (ms : List Move) : c.moves ms = c := by
  induction ms with
  | nil => rfl
  | cons m ms ih =>
    have hmove : c.move m = c := if_pos h
    rw [moves, List.foldl_cons, hmove]
    exact ih

end Child

/-! ## Between the calls -/

/-- Both streams flow and the child is well. -/
structure Good (cmd : Cmd) (child : Child) (outs errs : List (List Char)) : Prop where
  out : Flow cmd.ioOut child.out outs
  err : Flow cmd.ioErr child.err errs
  sane : child.Sane

/-- Both outputs of the child fit. -/
structure Fitting (child : Child) : Prop where
  out : Fits child.out.wrote
  err : Fits child.err.wrote

/-- The child has written more. -/
structure Grows (c c' : Child) : Prop where
  out : c.out.Grows c'.out
  err : c.err.Grows c'.err

theorem Grows.refl (c : Child) : Grows c c := ⟨.refl _, .refl _⟩

theorem Grows.trans {c c' c'' : Child} (h : Grows c c') (h' : Grows c' c'') : Grows c c'' :=
  ⟨h.out.trans h'.out, h.err.trans h'.err⟩

/-- A child only adds to what it has written. -/
theorem Grows.moves (c : Child) (ms : List Move) : Grows c (c.moves ms) :=
  ⟨(c.moves_evolves ms).1.grows, (c.moves_evolves ms).2.grows⟩

/-- What fits at the end did before. -/
theorem Grows.fitting {c c' : Child} (h : Grows c c') (hfits : Fitting c') : Fitting c :=
  ⟨hfits.out.within h.out.wrote.isInfix, hfits.err.within h.err.wrote.isInfix⟩

variable {cmd cmd' : Cmd} {child child' : Child} {outs errs : List (List Char)} {a : Answers}
  {timeout : ℕ}

/-- What the child does keeps the invariant. -/
theorem Good.moves (h : Good cmd child outs errs) (ms : List Move) :
    Good cmd (child.moves ms) outs errs :=
  ⟨(child.moves_evolves ms).1.flow h.out, (child.moves_evolves ms).2.flow h.err,
    h.sane.moves ms⟩

/-! ## The parts of `cmd_poll` -/

/-- Some system call fails, or `poll` waits in vain. -/
def Answers.fails (timeout : ℕ) (a : Answers) : Bool :=
  (a.write matches .failure _) || (a.poll matches .failure _) ||
    ((a.poll matches .timedOut _) && timeout ≠ 0) || (a.out.behind matches .failure _) ||
    (a.err.behind matches .failure _) || (a.wait matches .failure _)

/-- Writing only changes the buffer and the standard input. -/
structure Writes (cmd cmd' : Cmd) : Prop where
  out : cmd'.ioOut = cmd.ioOut
  err : cmd'.ioErr = cmd.ioErr
  stdin : cmd'.ioIn = cmd.ioIn ∨ cmd'.ioIn = none ∨
    ∃ io, cmd.ioIn = some io ∧ cmd'.ioIn = some { io with mustwr := false }

/-- `io_write` takes from the buffer. -/
theorem writes_written (cmd : Cmd) (buf : List Char) : Writes cmd { cmd with buf := buf }.written := by
  unfold Cmd.written
  split_ifs with hbuf honce
  · exact ⟨rfl, rfl, .inl rfl⟩
  · exact ⟨rfl, rfl, .inr (.inl rfl)⟩
  · refine ⟨rfl, rfl, ?_⟩
    cases hin : cmd.ioIn with
    | none => exact .inl rfl
    | some io => exact .inr (.inr ⟨io, rfl, rfl⟩)

/-- The input is written, where no call fails. -/
theorem writeInput_spec (hcalm : a.fails timeout = false) {r : Except (List Char) Cmd}
    (h : cmd.writeInput child a.write = some r) : ∃ cmd', r = .ok cmd' ∧ Writes cmd cmd' := by
  unfold Cmd.writeInput at h
  split_ifs at h with hwriting hpossible
  · exact ⟨cmd, (Option.some_inj.mp h).symm, ⟨rfl, rfl, .inl rfl⟩⟩
  · cases hwrite : a.write with
    | again =>
      rw [hwrite] at h
      exact ⟨cmd, (Option.some_inj.mp h).symm, ⟨rfl, rfl, .inl rfl⟩⟩
    | pipe =>
      rw [hwrite] at h
      exact ⟨_, (Option.some_inj.mp h).symm, writes_written cmd _⟩
    | wrote n =>
      rw [hwrite] at h
      cases n with
      | zero => exact ⟨_, (Option.some_inj.mp h).symm, writes_written cmd _⟩
      | succ n => exact ⟨_, (Option.some_inj.mp h).symm, writes_written cmd _⟩
    | failure cause =>
      rw [Answers.fails, hwrite] at hcalm
      simp at hcalm

/-- The streams that are read do not depend on the input. -/
theorem Good.writes (h : Good cmd child outs errs) (hwrites : Writes cmd cmd') :
    Good cmd' child outs errs := by
  refine ⟨?_, ?_, h.sane⟩
  · rw [hwrites.out]
    exact h.out
  · rw [hwrites.err]
    exact h.err

/-- All that `io_polln` can do with good streams when no call fails. -/
inductive PollCase (cmd : Cmd) (child : Child) (a : Answers) : Polled → Cmd → Child → Prop
  /-- An io is closed. -/
  | closed (s : Stream) (h : cmd.beforePolln = some (.closed s)) :
      PollCase cmd child a (.closed s) cmd child
  /-- There is nothing to report. -/
  | quiet (hopen : cmd.beforePolln = none) (h : ∀ i o e, a.poll ≠ .ready i o e) :
      PollCase cmd child a .done cmd (child.moves a.beforePoll)
  /-- Every io is handled. -/
  | ready (stdin out err : Revents) (ioOut ioErr : Option Io) (pipeOut pipeErr : Pipe) (c c' : Child)
      (hopen : cmd.beforePolln = none) (h : a.poll = .ready stdin out err)
      (hshows : cmd.shows (child.moves a.beforePoll) stdin out err = true)
      (hc : c = (child.moves a.beforePoll).moves a.beforeOut)
      (hout : afterPollPtr cmd.ioOut out c.out a.out = some (ioOut, pipeOut))
      (hc' : c' = { c with out := pipeOut }.moves a.beforeErr)
      (herr : afterPollPtr cmd.ioErr err c'.err a.err = some (ioErr, pipeErr)) :
      PollCase cmd child a .done
        { cmd with
          ioIn := cmd.ioIn.map (Inlet.afterPoll · stdin), ioOut := ioOut, ioErr := ioErr }
        { c' with err := pipeErr }

/-- A pointer behind `io_after_poll`. -/
inductive PollsPtr : Option Io → Pipe → Option Io → Pipe → Prop
  | null (p : Pipe) : PollsPtr none p none p
  | io {i i' : Io} {p p' : Pipe} (h : Polls i p i' p') : PollsPtr (some i) p (some i') p'

/-- Bytes that come in are those that follow in the pipe. -/
theorem PollsPtr.flow {io io' : Option Io} {p p' : Pipe} {ds : List (List Char)}
    (h : PollsPtr io p io' p') (hflow : Flow io p ds) : Flow io' p' ds := by
  cases h with
  | null => exact hflow
  | io hpolls => exact hflow.poll hpolls

theorem PollsPtr.wrote {io io' : Option Io} {p p' : Pipe} (h : PollsPtr io p io' p') :
    p'.wrote = p.wrote := by
  cases h with
  | null => rfl
  | io hpolls => exact hpolls.wrote

theorem PollsPtr.isOpen {io io' : Option Io} {p p' : Pipe} (h : PollsPtr io p io' p') :
    p'.isOpen = p.isOpen := by
  cases h with
  | null => rfl
  | io hpolls => exact hpolls.isOpen

/-- A stream that is polled has neither failed nor been closed. -/
theorem beforePoll_none {s : Stream} {io : Option Io} (h : beforePoll s io = none) {i : Io}
    (hi : io = some i) : i.error = none ∧ i.closed = false := by
  subst hi
  unfold beforePoll at h
  cases herror : i.error with
  | some cause => simp [herror] at h
  | none =>
    cases hclosed : i.closed with
    | true => simp [herror, hclosed] at h
    | false => exact ⟨rfl, rfl⟩

theorem beforePolln_none (h : cmd.beforePolln = none) :
    cmd.ioIn.any (·.closed) = false ∧ beforePoll .out cmd.ioOut = none ∧
      beforePoll .err cmd.ioErr = none := by
  unfold Cmd.beforePolln at h
  by_cases hin : cmd.ioIn.any (·.closed) = true
  · rw [if_pos hin] at h
    cases h
  · rw [if_neg hin, Option.or_eq_none_iff] at h
    exact ⟨Bool.eq_false_iff.mpr hin, h⟩

/-- A stream behind `poll`: some bytes are taken from its pipe, or its end is seen. -/
theorem afterPollPtr_spec {s : Stream} {io : Option Io} (hopen : beforePoll s io = none)
    {r : Revents} {p : Pipe} (htold : io ≠ none → Told r p) {reads : Reads}
    (hreads : ∀ cause, reads.behind ≠ .failure cause) {io' : Option Io} {p' : Pipe}
    (h : afterPollPtr io r p reads = some (io', p')) : PollsPtr io p io' p' := by
  cases io with
  | none =>
    cases h
    exact .null p
  | some i =>
    have hi := beforePoll_none hopen rfl
    obtain ⟨q, hq, heq⟩ := Option.map_eq_some_iff.mp h
    obtain ⟨rfl, rfl⟩ := Prod.mk.injEq .. ▸ heq
    exact .io (afterPoll_spec hi.1 hi.2 (htold nofun) hreads hq)

theorem PollsPtr.error {io io' : Option Io} {p p' : Pipe} (h : PollsPtr io p io' p') :
    io'.bind (·.error) = none := by
  cases h with
  | null => rfl
  | io hpolls => exact hpolls.error

/-- Without errors, a stream that is not polled has been closed. -/
theorem beforePoll_closed {s : Stream} {io : Option Io} (hio : ∀ i, io = some i → i.error = none)
    {polled : Polled} (h : beforePoll s io = some polled) :
    polled = .closed s ∧ ∃ i, io = some i ∧ i.closed = true := by
  unfold beforePoll at h
  cases io with
  | none => cases h
  | some i =>
    simp only [hio i rfl] at h
    by_cases hclosed : i.closed = true
    · rw [if_pos hclosed] at h
      exact ⟨(Option.some_inj.mp h).symm, i, rfl, hclosed⟩
    · rw [if_neg hclosed] at h
      cases h

/-- An io is found closed where it is closed. -/
theorem Good.beforePolln (h : Good cmd child outs errs) {polled : Polled}
    (hbefore : cmd.beforePolln = some polled) :
    polled = .closed .stdin ∧ (∃ io, cmd.ioIn = some io ∧ io.closed = true) ∨
      polled = .closed .out ∧ (∃ i, cmd.ioOut = some i ∧ i.closed = true) ∨
      polled = .closed .err ∧ (∃ i, cmd.ioErr = some i ∧ i.closed = true) := by
  unfold Cmd.beforePolln at hbefore
  by_cases hin : cmd.ioIn.any (·.closed) = true
  · rw [if_pos hin] at hbefore
    rw [Option.any_eq_true] at hin
    exact .inl ⟨(Option.some_inj.mp hbefore).symm, hin⟩
  · rw [if_neg hin, Option.or_eq_some_iff] at hbefore
    rcases hbefore with hout | ⟨-, herr⟩
    · exact .inr (.inl (beforePoll_closed (fun i hi => (h.out.usable i hi).2.1) hout))
    · exact .inr (.inr (beforePoll_closed (fun i hi => (h.err.usable i hi).2.1) herr))

/-- The streams of a ready poll. -/
theorem polls_ready (hcalm : a.fails timeout = false) (hopen : cmd.beforePolln = none)
    {stdin out err : Revents}
    (hshows : cmd.shows (child.moves a.beforePoll) stdin out err = true) {ioOut : Option Io}
    {pipeOut : Pipe} {c : Child} (hc : c = (child.moves a.beforePoll).moves a.beforeOut)
    (hout : afterPollPtr cmd.ioOut out c.out a.out = some (ioOut, pipeOut)) :
    PollsPtr cmd.ioOut c.out ioOut pipeOut ∧
      ∀ c' ioErr pipeErr, c' = { c with out := pipeOut }.moves a.beforeErr →
        afterPollPtr cmd.ioErr err c'.err a.err = some (ioErr, pipeErr) →
        PollsPtr cmd.ioErr c'.err ioErr pipeErr := by
  have hio := beforePolln_none hopen
  simp only [Cmd.shows, Bool.and_eq_true, Bool.or_eq_true, Option.isNone_iff_eq_none] at hshows
  simp only [Answers.fails, Bool.or_eq_false_iff] at hcalm
  refine ⟨afterPollPtr_spec hio.2.1 (fun hne => ?_) (fun cause hcause => ?_) hout,
    fun c' ioErr pipeErr hc' herr =>
      afterPollPtr_spec hio.2.2 (fun hne => ?_) (fun cause hcause => ?_) herr⟩
  · have htold := told_of_shows (hshows.1.2.resolve_left hne)
    rw [hc]
    exact (Child.moves_evolves _ _).1.told htold
  · rw [hcause] at hcalm
    simp at hcalm
  · have htold := told_of_shows (hshows.2.resolve_left hne)
    rw [hc']
    refine (Child.moves_evolves _ _).2.told ?_
    show Told err c.err
    rw [hc]
    exact (Child.moves_evolves _ _).2.told htold
  · rw [hcause] at hcalm
    simp at hcalm

/-- What comes of `io_polln`, where no call fails: data, or a stream that has ended. -/
theorem Good.polln_cases (h : Good cmd child outs errs) (hcalm : a.fails timeout = false)
    {polled : Polled} (hpoll : cmd.ioPolln timeout child a = some (polled, cmd', child')) :
    PollCase cmd child a polled cmd' child' := by
  unfold Cmd.ioPolln at hpoll
  cases hbefore : cmd.beforePolln with
  | some p =>
    rw [hbefore] at hpoll
    cases hpoll
    rcases h.beforePolln hbefore with ⟨rfl, -⟩ | ⟨rfl, -⟩ | ⟨rfl, -⟩
    · exact .closed .stdin hbefore
    · exact .closed .out hbefore
    · exact .closed .err hbefore
  | none =>
    rw [hbefore] at hpoll
    dsimp only at hpoll
    cases hanswer : a.poll with
    | timedOut cause =>
      rw [hanswer] at hpoll
      have hzero : timeout = 0 := by
        simp only [Answers.fails, hanswer, Bool.or_eq_false_iff] at hcalm
        simpa using hcalm.1.1.1.2
      dsimp only at hpoll
      rw [if_pos hzero] at hpoll
      cases hpoll
      exact .quiet hbefore (by simp [hanswer])
    | interrupted =>
      rw [hanswer] at hpoll
      cases hpoll
      exact .quiet hbefore (by simp [hanswer])
    | again =>
      rw [hanswer] at hpoll
      cases hpoll
      exact .quiet hbefore (by simp [hanswer])
    | failure cause =>
      rw [Answers.fails, hanswer] at hcalm
      simp at hcalm
    | ready stdin out err =>
      rw [hanswer] at hpoll
      dsimp only at hpoll
      split_ifs at hpoll with hshows
      simp only [Cmd.afterPolln, Option.bind_eq_bind, Option.bind_eq_some_iff] at hpoll
      obtain ⟨⟨ioOut, pipeOut⟩, hout, hpoll⟩ := hpoll
      have hready := polls_ready hcalm hbefore hshows rfl hout
      rw [hready.1.error] at hpoll
      simp only [Option.bind_eq_some_iff] at hpoll
      obtain ⟨⟨ioErr, pipeErr⟩, herr, hpoll⟩ := hpoll
      rw [(hready.2 _ ioErr pipeErr rfl herr).error] at hpoll
      cases hpoll
      exact .ready stdin out err ioOut ioErr pipeOut pipeErr _ _ hbefore hanswer hshows rfl hout rfl
        herr

/-- Polling keeps the streams. -/
theorem Good.polled (h : Good cmd child outs errs) (hcalm : a.fails timeout = false)
    {polled : Polled} (hcase : PollCase cmd child a polled cmd' child') :
    Good cmd' child' outs errs := by
  cases hcase with
  | closed s hclosed => exact h
  | quiet hopen hquiet => exact h.moves _
  | ready stdin out err ioOut ioErr pipeOut pipeErr c c' hopen hanswer hshows hc hout hc' herr =>
    have hready := polls_ready hcalm hopen hshows hc hout
    have hgood : Good cmd c outs errs := by
      rw [hc]
      exact (h.moves _).moves _
    -- the standard output has been polled, and the child goes on
    have hmid : Good { cmd with ioOut := ioOut } { c with out := pipeOut } outs errs := by
      refine ⟨hready.1.flow hgood.out, hgood.err, hgood.sane.alive, fun hended => ?_⟩
      rw [hready.1.isOpen]
      exact hgood.sane.shut hended
    have hgood' : Good { cmd with ioOut := ioOut } c' outs errs := by
      rw [hc']
      exact hmid.moves _
    have hpolls := hready.2 c' ioErr pipeErr hc' herr
    refine ⟨hgood'.out, hpolls.flow hgood'.err, hgood'.sane.alive, fun hended => ?_⟩
    rw [hpolls.isOpen]
    exact hgood'.sane.shut hended

/-- An io that is closed and has nothing left is freed. -/
theorem Good.closeFound (h : Good cmd child outs errs) {s : Stream}
    (hbefore : cmd.beforePolln = some (.closed s)) : Good (cmd.closeFound s) child outs errs := by
  have hclosed := h.beforePolln hbefore
  cases s with
  | stdin => exact ⟨h.out, h.err, h.sane⟩
  | out =>
    obtain ⟨i, hi, hshut⟩ : ∃ i, cmd.ioOut = some i ∧ i.closed = true := by simpa using hclosed
    have hout : Flow (some i) child.out outs := hi ▸ h.out
    unfold Cmd.closeFound
    dsimp only
    by_cases hsize : i.rd.size = 0
    · rw [if_pos (by simp [hi, hsize])]
      exact ⟨hout.free hshut hsize, h.err, h.sane⟩
    · rw [if_neg (by simp [hi, hsize])]
      exact h
  | err =>
    obtain ⟨i, hi, hshut⟩ : ∃ i, cmd.ioErr = some i ∧ i.closed = true := by simpa using hclosed
    have herr : Flow (some i) child.err errs := hi ▸ h.err
    unfold Cmd.closeFound
    dsimp only
    by_cases hsize : i.rd.size = 0
    · rw [if_pos (by simp [hi, hsize])]
      exact ⟨h.out, herr.free hshut hsize, h.sane⟩
    · rw [if_neg (by simp [hi, hsize])]
      exact h

/-! ## Lines and the exit code -/

/-- What is left to do for a stream: its lines, and then to find it closed and to free it. -/
def ioTodo (io : Option Io) (p : Pipe) : ℕ :=
  io.elim 0 fun i => (if i.closed then 1 else 2) + (lines (i.rd.contents ++ p.unread)).length

/-- One stream behind `nextLine`. -/
structure LineStep (io : Option Io) (p : Pipe) (ds : List (List Char)) (line : Option (List Char))
    (io' : Option Io) : Prop where
  flow : Flow io' p (ds ++ line.toList)
  same : line = none → io' = io
  fewer : line.isSome = true → ioTodo io' p < ioTodo io p
  some : (∃ i, io = some i ∧ i.closed = true ∧ i.rd.size ≠ 0) → line.isSome = true

/-- `io_readline2` takes the next line off the stream. -/
theorem nextLine_spec {io io' : Option Io} {p : Pipe} {ds : List (List Char)} (h : Flow io p ds)
    (hfits : Fits p.wrote) {line : Option (List Char)} (hnext : nextLine io = some (line, io')) :
    LineStep io p ds line io' := by
  cases io with
  | none =>
    cases hnext
    refine ⟨?_, fun _ => rfl, nofun, fun ⟨i, hi, _⟩ => nomatch hi⟩
    rw [Option.toList_none, List.append_nil]
    exact h
  | some i =>
    obtain ⟨⟨l, i'⟩, hread, heq⟩ := Option.map_eq_some_iff.mp hnext
    obtain ⟨rfl, rfl⟩ := Prod.mk.injEq .. ▸ heq
    have hreturns := h.returns hfits hread
    refine ⟨hreturns.flow, fun hnone => ?_, fun hsome => ?_, fun ⟨j, hj, hclosed, hsize⟩ => ?_⟩
    · rw [hreturns.same (Option.map_eq_none_iff.mp hnone)]
    · rw [Option.isSome_map] at hsome
      have hfewer : (lines (i'.rd.contents ++ p.unread)).length
          < (lines (i.rd.contents ++ p.unread)).length := hreturns.fewer hsome
      simp only [ioTodo, Option.elim_some, hreturns.closed]
      omega
    · obtain rfl := Option.some_inj.mp hj
      rw [Option.isSome_map]
      exact hreturns.some hclosed hsize

/-- What is left to do for the command. -/
def Cmd.todo (cmd : Cmd) (child : Child) : ℕ :=
  cmd.ioIn.elim 0 (fun io => if io.closed then 1 else 2) + ioTodo cmd.ioOut child.out +
    ioTodo cmd.ioErr child.err

/-- The lines that a result adds to a stream. -/
def lineOf (r : Option Result) (stream : Result → Option (List Char)) : List (List Char) :=
  (r.bind stream).toList

/-- What `readLine` does: a line of one of the streams is returned, or there is none. -/
structure Lined (cmd : Cmd) (child : Child) (outs errs : List (List Char)) (r : Option Result)
    (cmd' : Cmd) : Prop where
  good : Good cmd' child (outs ++ lineOf r Result.out) (errs ++ lineOf r Result.err)
  zero : ∀ x, r = some x → x.ret = 0
  same : r = none → cmd' = cmd
  fewer : r.isSome = true → cmd'.todo child < cmd.todo child
  some : (∃ i, (cmd.ioOut = some i ∨ cmd.ioErr = some i) ∧ i.closed = true ∧ i.rd.size ≠ 0) →
    r.isSome = true

/-- A line of one of the streams is handed out, or there is none. -/
theorem Good.readLine (h : Good cmd child outs errs) (hfits : Fitting child) {r : Option Result}
    (hread : cmd.readLine = some (r, cmd')) : Lined cmd child outs errs r cmd' := by
  simp only [Cmd.readLine, Option.bind_eq_bind, Option.bind_eq_some_iff] at hread
  obtain ⟨⟨err, ioErr⟩, hnext, hread⟩ := hread
  have herr := nextLine_spec h.err hfits.err hnext
  cases err with
  | some l =>
    cases hread
    refine ⟨⟨?_, herr.flow, h.sane⟩, fun x hx => ?_, nofun, fun _ => ?_, fun _ => rfl⟩
    · rw [lineOf, Option.bind_some, Option.toList_none, List.append_nil]
      exact h.out
    · rw [← Option.some_inj.mp hx]
    · have hfewer := herr.fewer rfl
      simp only [Cmd.todo]
      omega
  | none =>
    have hsame := herr.same rfl
    subst hsame
    simp only [Option.isSome_none, Bool.false_eq_true, if_false, Option.bind_eq_some_iff] at hread
    obtain ⟨⟨out, ioOut⟩, hnext', hread⟩ := hread
    have hout := nextLine_spec h.out hfits.out hnext'
    cases out with
    | some l =>
      cases hread
      refine ⟨⟨hout.flow, ?_, h.sane⟩, fun x hx => ?_, nofun, fun _ => ?_, fun _ => rfl⟩
      · rw [lineOf, Option.isSome_some, if_pos rfl, Option.bind_some, Option.toList_none,
          List.append_nil]
        exact h.err
      · rw [Option.isSome_some, if_pos rfl] at hx
        rw [← Option.some_inj.mp hx]
      · have hfewer := hout.fewer rfl
        simp only [Cmd.todo]
        omega
    | none =>
      have hsame := hout.same rfl
      subst hsame
      cases hread
      refine ⟨?_, nofun, fun _ => rfl, nofun, fun ⟨i, hi, hleft⟩ => ?_⟩
      · simp only [lineOf, Option.isSome_none, Bool.false_eq_true, if_false, Option.bind_none,
          Option.toList_none, List.append_nil]
        exact h
      · rcases hi with hi | hi
        · exact absurd (hout.some ⟨i, hi, hleft⟩) Bool.false_ne_true
        · exact absurd (herr.some ⟨i, hi, hleft⟩) Bool.false_ne_true

/-- All descriptors that are read are closed and freed. -/
structure Drained (cmd : Cmd) : Prop where
  stdin : cmd.ioIn = none
  out : cmd.ioOut = none
  err : cmd.ioErr = none

/-- Nothing is left to be read when all are closed. -/
theorem drained_of_not_anyOpen (h : cmd.anyOpen = false) : Drained cmd := by
  simp only [Cmd.anyOpen, Bool.or_eq_false_iff, Option.isSome_eq_false_iff,
    Option.isNone_iff_eq_none] at h
  exact ⟨h.1.1, h.1.2, h.2⟩

/-- What a call of `cmd_poll` returns: nothing, a line, or the exit code at the end. -/
inductive Answered (cmd : Cmd) (child : Child) (r : Result) : Prop
  | more (h : r.ret = 0)
  | exit (code : Fin 256) (h : r.ret = 1 + code) (hstatus : child.status = .exited code)
      (hdrained : Drained cmd) (hout : r.out = none) (herr : r.err = none)

/-- The status is that of the child when `waitpid` has returned it. -/
theorem waitChild_spec (hcalm : a.fails timeout = false) (hsane : child.Sane)
    {r : Result} (hwait : waitChild timeout child a.wait = some r) :
    r.out = none ∧ r.err = none ∧
      (r.ret = 0 ∨ ∃ code : Fin 256, r.ret = 1 + code ∧ child.status = .exited code) := by
  unfold waitChild at hwait
  cases hanswer : a.wait with
  | failure cause =>
    rw [Answers.fails, hanswer] at hcalm
    simp at hcalm
  | nothing =>
    rw [hanswer] at hwait
    dsimp only at hwait
    split_ifs at hwait
    cases hwait
    exact ⟨rfl, rfl, .inl rfl⟩
  | child =>
    rw [hanswer] at hwait
    dsimp only at hwait
    cases hstatus : child.status with
    | running =>
      rw [hstatus] at hwait
      cases hwait
    | exited code =>
      rw [hstatus] at hwait
      cases hwait
      exact ⟨rfl, rfl, .inr ⟨code, rfl, rfl⟩⟩
    | signaled sig => exact absurd hstatus (hsane.alive sig)

/-- `cmd_poll` behind the call of `io_polln`. -/
theorem Good.afterPolling (h : Good cmd child outs errs) (hcalm : a.fails timeout = false)
    {r : Result} (hafter : cmd.afterPolling timeout child a = some (r, cmd', child'))
    (hfits : Fitting child') :
    Good cmd' child' (outs ++ r.out.toList) (errs ++ r.err.toList) ∧ Answered cmd' child' r := by
  simp only [Cmd.afterPolling, Option.bind_eq_bind, Option.bind_eq_some_iff] at hafter
  obtain ⟨⟨line, cmd₁⟩, hread, hafter⟩ := hafter
  cases line with
  | some x =>
    cases hafter
    have hlined := h.readLine hfits hread
    exact ⟨hlined.good, .more (hlined.zero _ rfl)⟩
  | none =>
    dsimp only at hafter
    by_cases hany : cmd₁.anyOpen = true
    · rw [if_pos hany] at hafter
      cases hafter
      exact ⟨(h.readLine hfits hread).good, .more rfl⟩
    · rw [if_neg hany] at hafter
      simp only [Option.bind_eq_some_iff] at hafter
      obtain ⟨x, hwait, hafter⟩ := hafter
      cases hafter
      have hlined := h.readLine ((Grows.moves child a.beforeWait).fitting hfits) hread
      have hwaited := waitChild_spec hcalm (hlined.good.sane.moves _) hwait
      refine ⟨?_, ?_⟩
      · rw [hwaited.1, hwaited.2.1]
        exact hlined.good.moves a.beforeWait
      · rcases hwaited.2.2 with hzero | ⟨code, hret, hstatus⟩
        · exact .more hzero
        · exact .exit code hret hstatus (drained_of_not_anyOpen (Bool.eq_false_iff.mpr hany))
            hwaited.1 hwaited.2.1

/-! ## A whole call -/

/-- Some io is known to be closed. -/
def Cmd.anyClosed (cmd : Cmd) : Bool :=
  cmd.ioIn.any (·.closed) || cmd.ioOut.any (·.closed) || cmd.ioErr.any (·.closed)

/-- A stream was closed before, as the input is no stream that is read. -/
theorem Writes.anyClosed (hwrites : Writes cmd cmd') (h : Good cmd' child outs errs) {s : Stream}
    (hbefore : cmd'.beforePolln = some (.closed s)) : cmd.anyClosed = true := by
  simp only [Cmd.anyClosed, Bool.or_eq_true, Option.any_eq_true]
  rcases h.beforePolln hbefore with ⟨-, io, hio, hclosed⟩ | ⟨-, hio⟩ | ⟨-, hio⟩
  · refine .inl (.inl ?_)
    rcases hwrites.stdin with hstdin | hstdin | ⟨io', hio', hstdin⟩
    · exact ⟨io, hstdin ▸ hio, hclosed⟩
    · rw [hstdin] at hio
      cases hio
    · rw [hstdin] at hio
      cases hio
      exact ⟨io', hio', hclosed⟩
  · exact .inl (.inr (hwrites.out ▸ hio))
  · exact .inr (hwrites.err ▸ hio)

/-- `cmd_poll` does not kill the child: none of its descriptors is known to be closed, or the child
has ended by then or catches the signal. -/
def Spares (cmd : Cmd) (child : Child) (a : Answers) : Prop :=
  cmd.anyClosed = true → ((child.moves a.beforeWrite).moves a.beforeKill).Spared

/-- What can become of a child: it moves, its pipes are read, and it is killed. -/
inductive Child.Evolves (c : Child) : Child → Prop
  | refl : Evolves c c
  | moves {d : Child} (h : Evolves c d) (ms : List Move) : Evolves c (d.moves ms)
  | takeOut {d : Child} (h : Evolves c d) (n : ℕ) : Evolves c { d with out := d.out.take n }
  | takeErr {d : Child} (h : Evolves c d) (n : ℕ) : Evolves c { d with err := d.err.take n }
  | kill {d : Child} (h : Evolves c d) : Evolves c d.kill

theorem Child.Evolves.trans {c d e : Child} (h : c.Evolves d) (h' : d.Evolves e) : c.Evolves e := by
  induction h' with
  | refl => exact h
  | moves _ ms ih => exact ih.moves ms
  | takeOut _ n ih => exact ih.takeOut n
  | takeErr _ n ih => exact ih.takeErr n
  | kill _ ih => exact ih.kill

theorem Child.Evolves.grows {c d : Child} (h : c.Evolves d) : Grows c d := by
  induction h with
  | refl => exact .refl c
  | moves _ ms ih => exact ih.trans (.moves _ ms)
  | takeOut _ n ih => exact ih.trans ⟨⟨List.prefix_refl _, fun hshut => ⟨hshut, rfl⟩⟩, .refl _⟩
  | takeErr _ n ih => exact ih.trans ⟨.refl _, ⟨List.prefix_refl _, fun hshut => ⟨hshut, rfl⟩⟩⟩
  | @kill d _ ih =>
    refine ih.trans ?_
    unfold Child.kill
    split_ifs
    · exact ⟨(d.ended_out _).grows, (d.ended_err _).grows⟩
    · exact .refl d

/-- A child that has ended stays as it has ended. -/
theorem Child.Evolves.status {c d : Child} (h : c.Evolves d) (hended : c.status ≠ .running) :
    d.status = c.status := by
  induction h with
  | refl => rfl
  | moves _ ms ih => rw [Child.moves_ended (by rw [ih]; exact hended), ih]
  | takeOut _ n ih => exact ih
  | takeErr _ n ih => exact ih
  | kill _ ih => rw [Child.kill_spared _ (.inl (by rw [ih]; exact hended)), ih]

/-- A pipe is only read from its front. -/
theorem afterPollPtr_take {io io' : Option Io} {r : Revents} {p p' : Pipe} {reads : Reads}
    (h : afterPollPtr io r p reads = some (io', p')) : ∃ n, p' = p.take n := by
  cases io with
  | none =>
    cases h
    exact ⟨0, rfl⟩
  | some i =>
    obtain ⟨q, hq, heq⟩ := Option.map_eq_some_iff.mp h
    obtain ⟨-, rfl⟩ := Prod.mk.injEq .. ▸ heq
    unfold afterPoll at hq
    split_ifs at hq
    · cases hq
      exact ⟨0, rfl⟩
    · simp only [Option.bind_eq_bind, Option.bind_eq_some_iff] at hq
      obtain ⟨⟨f, j⟩, -, hq⟩ := hq
      cases hq
      exact ⟨_, rfl⟩
    · cases hq
      exact ⟨0, rfl⟩

/-- The child evolves in `io_polln`. -/
theorem ioPolln_evolves {polled : Polled}
    (h : cmd.ioPolln timeout child a = some (polled, cmd', child')) : child.Evolves child' := by
  have hmoves : child.Evolves (child.moves a.beforePoll) := .moves .refl _
  unfold Cmd.ioPolln at h
  split at h
  · cases h
    exact .refl
  dsimp only at h
  split at h
  · split_ifs at h
    simp only [Cmd.afterPolln, Option.bind_eq_bind, Option.bind_eq_some_iff] at h
    obtain ⟨⟨ioOut, pipeOut⟩, hout, h⟩ := h
    obtain ⟨n, rfl⟩ := afterPollPtr_take hout
    have hread := (hmoves.moves a.beforeOut).takeOut n
    split at h
    · cases h
      exact hread
    simp only [Option.bind_eq_some_iff] at h
    obtain ⟨⟨ioErr, pipeErr⟩, herr, h⟩ := h
    obtain ⟨k, rfl⟩ := afterPollPtr_take herr
    have hread' := (hread.moves a.beforeErr).takeErr k
    split at h
    · cases h
      exact hread'
    · cases h
      exact hread'
  · split_ifs at h
    · cases h
      exact hmoves
    · cases h
      exact hmoves
  all_goals
    cases h
    exact hmoves

/-- A line is handed out without a status. -/
theorem readLine_zero {r : Result} (h : cmd.readLine = some (some r, cmd')) : r.ret = 0 := by
  simp only [Cmd.readLine, Option.bind_eq_bind, Option.bind_eq_some_iff] at h
  obtain ⟨⟨err, ioErr⟩, -, h⟩ := h
  split_ifs at h
  · cases h
    rfl
  · simp only [Option.bind_eq_some_iff] at h
    obtain ⟨⟨out, ioOut⟩, -, h⟩ := h
    split_ifs at h
    · cases h
      rfl
    · cases h

/-- Behind `io_polln`, a status that is returned is the one that the child exited with. -/
theorem afterPolling_evolves {r : Result}
    (h : cmd.afterPolling timeout child a = some (r, cmd', child')) :
    child.Evolves child' ∧ (0 < r.ret → ∃ code, child'.status = .exited code) := by
  simp only [Cmd.afterPolling, Option.bind_eq_bind, Option.bind_eq_some_iff] at h
  obtain ⟨⟨line, cmd₁⟩, hread, h⟩ := h
  cases line with
  | some x =>
    cases h
    exact ⟨.refl, fun hpos => absurd hpos (by rw [readLine_zero hread]; decide)⟩
  | none =>
    dsimp only at h
    split_ifs at h
    · cases h
      exact ⟨.refl, fun hpos => absurd hpos (by decide)⟩
    simp only [Option.bind_eq_some_iff] at h
    obtain ⟨x, hwait, h⟩ := h
    cases h
    refine ⟨.moves .refl _, fun hpos => ?_⟩
    unfold waitChild at hwait
    cases hanswer : a.wait with
    | failure cause =>
      rw [hanswer] at hwait
      cases hwait
      exact absurd hpos (show ¬ (0 : ℤ) < -1 by decide)
    | nothing =>
      rw [hanswer] at hwait
      dsimp only at hwait
      split_ifs at hwait
      cases hwait
      exact absurd hpos (by decide)
    | child =>
      rw [hanswer] at hwait
      dsimp only at hwait
      cases hstatus : (child.moves a.beforeWait).status with
      | running =>
        rw [hstatus] at hwait
        cases hwait
      | exited code => exact ⟨code, rfl⟩
      | signaled sig =>
        rw [hstatus] at hwait
        cases hwait
        exact absurd hpos (show ¬ (0 : ℤ) < -1 by decide)

/-- Whatever happens in a call: the child evolves, and only a child that has exited has an exit
code. -/
theorem cmdPoll_evolves {r : Result}
    (h : cmd.cmdPoll timeout child a = some (r, cmd', child')) :
    child.Evolves child' ∧ (0 < r.ret → ∃ code, child'.status = .exited code) := by
  simp only [Cmd.cmdPoll, Option.bind_eq_bind, Option.bind_eq_some_iff] at h
  obtain ⟨written, -, h⟩ := h
  have hmoves : child.Evolves (child.moves a.beforeWrite) := .moves .refl _
  cases written with
  | error cause =>
    cases h
    exact ⟨hmoves, fun hpos => absurd hpos (show ¬ (0 : ℤ) < -1 by decide)⟩
  | ok cmd₁ =>
    dsimp only at h
    split_ifs at h
    · have hafter := afterPolling_evolves h
      exact ⟨hmoves.trans hafter.1, hafter.2⟩
    simp only [Option.bind_eq_some_iff] at h
    obtain ⟨⟨polled, cmd₂, child₂⟩, hpoll, h⟩ := h
    have hpolled := hmoves.trans (ioPolln_evolves hpoll)
    cases polled with
    | failed cause =>
      cases h
      exact ⟨(hpolled.moves _).kill, fun hpos => absurd hpos (show ¬ (0 : ℤ) < -1 by decide)⟩
    | closed s =>
      have hafter := afterPolling_evolves h
      exact ⟨(hpolled.moves _).kill.trans hafter.1, hafter.2⟩
    | done =>
      have hafter := afterPolling_evolves h
      exact ⟨hpolled.trans hafter.1, hafter.2⟩

/-- A call in which nothing fails and that spares the child. -/
theorem Good.call (h : Good cmd child outs errs) (hcalm : a.fails timeout = false)
    (hspares : Spares cmd child a) {r : Result}
    (hcall : cmd.cmdPoll timeout child a = some (r, cmd', child')) (hfits : Fitting child') :
    Good cmd' child' (outs ++ r.out.toList) (errs ++ r.err.toList) ∧ Answered cmd' child' r := by
  simp only [Cmd.cmdPoll, Option.bind_eq_bind, Option.bind_eq_some_iff] at hcall
  obtain ⟨written, hwrite, hcall⟩ := hcall
  obtain ⟨cmd₁, rfl, hwrites⟩ := writeInput_spec hcalm hwrite
  have hgood : Good cmd₁ (child.moves a.beforeWrite) outs errs := (h.moves _).writes hwrites
  dsimp only at hcall
  by_cases hany : cmd₁.anyOpen = false
  · rw [if_pos hany] at hcall
    exact hgood.afterPolling hcalm hcall hfits
  rw [if_neg hany] at hcall
  simp only [Option.bind_eq_some_iff] at hcall
  obtain ⟨⟨polled, cmd₂, child₂⟩, hpoll, hcall⟩ := hcall
  have hcase := hgood.polln_cases hcalm hpoll
  have hpolled := hgood.polled hcalm hcase
  cases hcase with
  | quiet hopen hquiet => exact hpolled.afterPolling hcalm hcall hfits
  | ready stdin out err ioOut ioErr pipeOut pipeErr c c' hopen hanswer hshows hc hout hc' herr =>
    exact hpolled.afterPolling hcalm hcall hfits
  | closed s hclosed =>
    dsimp only at hcall
    rw [Child.kill_spared _ (hspares (hwrites.anyClosed hgood hclosed))] at hcall
    exact ((hgood.moves a.beforeKill).closeFound hclosed).afterPolling hcalm hcall hfits

end Fdm.Command
