import Fdm.Io.Defs
import Fdm.Lib.Runs

/-!
# Commands

`command.c`, with what it uses of `io.c` for several descriptors at once: `cmd_start` and
`cmd_poll` for a child that writes to two pipes and reads from a third.

* `Child` is the child and the pipes; it moves by itself, also between the system calls of
  one `cmd_poll`.
* `Answers` is what the system calls of one `cmd_poll` return. A call that could not have
  returned that is `none`, and so is what `fatalx` would end.
* `step` is a run: moves of the child, and calls of `cmd_poll` until it returns -1 or the exit
  code of the child.
-/

namespace Fdm.Command

/-! ## The child -/

/-- What `waitpid` would say of the child. -/
inductive Status
  | running
  | exited (code : Fin 256)
  | signaled (sig : ℕ)
deriving DecidableEq, Repr

/-- A pipe the child writes to. -/
structure Pipe where
  /-- All that has been written, for the statements. -/
  wrote : List Char := []
  unread : List Char := []
  /-- The child has not closed it. -/
  isOpen : Bool := true
deriving DecidableEq, Repr

namespace Pipe

def write (p : Pipe) (s : List Char) : Pipe :=
  if p.isOpen then { p with wrote := p.wrote ++ s, unread := p.unread ++ s } else p

def close (p : Pipe) : Pipe := { p with isOpen := false }

def take (p : Pipe) (n : ℕ) : Pipe := { p with unread := p.unread.drop n }

end Pipe

/-- The three descriptors of a child. -/
inductive Stream
  | stdin
  | out
  | err
deriving DecidableEq, Repr

/-- The child process. -/
structure Child where
  status : Status := .running
  /-- It has not closed its standard input. -/
  stdin : Bool := true
  out : Pipe := {}
  err : Pipe := {}
  /-- It catches `SIGTERM`. -/
  catches : Bool := false
deriving DecidableEq, Repr

/-- What a child can do. -/
inductive Move
  | writeOut (s : List Char)
  | writeErr (s : List Char)
  | close (s : Stream)
  | sigterm (caught : Bool)
  | exit (code : Fin 256)
deriving DecidableEq, Repr

namespace Child

/-- A process that ends closes its descriptors. -/
def ended (c : Child) (status : Status) : Child :=
  { c with status := status, stdin := false, out := c.out.close, err := c.err.close }

def move (c : Child) (m : Move) : Child :=
  if c.status ≠ .running then c
  else
    match m with
    | .writeOut s => { c with out := c.out.write s }
    | .writeErr s => { c with err := c.err.write s }
    | .close .stdin => { c with stdin := false }
    | .close .out => { c with out := c.out.close }
    | .close .err => { c with err := c.err.close }
    | .sigterm caught => { c with catches := caught }
    | .exit code => c.ended (.exited code)

def moves (c : Child) (ms : List Move) : Child := ms.foldl move c

/-- `kill(cmd->pid, SIGTERM)`. -/
def kill (c : Child) : Child :=
  if c.status = .running ∧ c.catches = false then c.ended (.signaled 15) else c

end Child

/-! ## System calls -/

/-- What `write` returns; `again` is for `EINTR` and `EAGAIN`. -/
inductive Written
  | wrote (n : ℕ)
  | again
  | pipe
  | failure (cause : List Char)
deriving DecidableEq, Repr

/-- `pfd->revents`. -/
structure Revents where
  pollin : Bool := false
  pollout : Bool := false
  pollhup : Bool := false
  pollerr : Bool := false
  pollnval : Bool := false
deriving DecidableEq, Repr

/-- What `poll` returns. -/
inductive Polling
  | ready (stdin out err : Revents)
  | timedOut (cause : List Char)
  | interrupted
  | again
  | failure (cause : List Char)
deriving DecidableEq, Repr

/-- What the calls of `read` in one `io_fill` find. -/
structure Reads where
  ready : List Char := []
  behind : Io.Behind := .nothing
deriving DecidableEq, Repr

/-- What `waitpid` returns: the child, 0 or -1. -/
inductive Waited
  | child
  | nothing
  | failure (cause : List Char)
deriving DecidableEq, Repr

/-- What the system calls of one `cmd_poll` return, and what the child does between them. -/
structure Answers where
  beforeWrite : List Move := []
  write : Written := .again
  beforePoll : List Move := []
  poll : Polling := .interrupted
  beforeOut : List Move := []
  out : Reads := {}
  beforeErr : List Move := []
  err : Reads := {}
  beforeKill : List Move := []
  beforeWait : List Move := []
  wait : Waited := .child
deriving DecidableEq, Repr

/-- `write` of `len` bytes can return that. -/
def Written.possible (c : Child) (len : ℕ) : Written → Bool
  | .wrote n => c.stdin && decide (n ≤ len)
  | .again => true
  | .pipe => !c.stdin
  | .failure _ => true

/-- The events that `poll` reports for a pipe that is read. -/
def Pipe.shows (p : Pipe) (r : Revents) : Bool :=
  !r.pollerr && !r.pollnval && (!r.pollhup || !p.isOpen) &&
    (if p.unread ≠ [] then r.pollin
      else if p.isOpen then !r.pollin
      else r.pollin || r.pollhup)

/-- The events that `poll` reports for the pipe that is written to. -/
def Child.showsStdin (c : Child) (r : Revents) : Bool :=
  !r.pollin && !r.pollnval && ((r.pollerr || r.pollhup) == !c.stdin)

/-- The calls of `read` can find that. -/
def Reads.possible (r : Reads) (p : Pipe) : Bool :=
  r.ready.isPrefixOf p.unread &&
    (r.behind != .eof || (!p.isOpen && decide (r.ready = p.unread)))

/-! ## The functions -/

/-- `struct io` of the child's standard input, to which only `cmd_poll` writes. -/
structure Inlet where
  closed : Bool := false
  mustwr : Bool := false
deriving DecidableEq, Repr

/-- `struct cmd`; `cmd->len` is the length of `buf`. -/
structure Cmd where
  once : Bool
  buf : List Char
  ioIn : Option Inlet
  ioOut : Option Io
  ioErr : Option Io

/-- The flags of `cmd_start`. -/
structure Flags where
  cmdIn : Bool := false
  cmdOut : Bool := false
  cmdOnce : Bool := false
deriving DecidableEq, Repr

/-- What `cmd_start` makes once the child runs. -/
def cmdStart (flags : Flags) (buf : List Char) : Option Cmd := do
  let buf := if flags.cmdIn then buf else []
  let ioOut ← Io.create ioLf
  let ioErr ← Io.create ioLf
  some
    { once := flags.cmdOnce
      buf := buf
      ioIn := if flags.cmdIn then some { mustwr := buf ≠ [] } else none
      ioOut := if flags.cmdOut then some ioOut else none
      ioErr := some ioErr }

/-- The child that `cmd_start` starts: without a pipe it reads from and writes to `/dev/null`. -/
def childStart (flags : Flags) : Child where
  stdin := flags.cmdIn
  out := { isOpen := flags.cmdOut }

/-- What `cmd_poll` returns, with `*out`, `*err` and `*cause`. -/
structure Result where
  ret : ℤ
  out : Option (List Char) := none
  err : Option (List Char) := none
  cause : Option (List Char) := none
deriving DecidableEq, Repr

namespace Cmd

variable (cmd : Cmd)

/-- Some descriptor is open. -/
def anyOpen : Bool := cmd.ioIn.isSome || cmd.ioOut.isSome || cmd.ioErr.isSome

/-- The end of the fixed buffer. -/
def written : Cmd :=
  if cmd.buf ≠ [] then cmd
  else if cmd.once then { cmd with ioIn := none }
  else { cmd with ioIn := cmd.ioIn.map fun io => { io with mustwr := false } }

/-- The fixed buffer is written when there is one and `io_in` is not closed. -/
def writing : Bool := decide (cmd.buf ≠ []) && cmd.ioIn.any (!·.closed)

/-- The first part of `cmd_poll`: write what is left of the buffer. -/
def writeInput (child : Child) (n : Written) : Option (Except (List Char) Cmd) :=
  if cmd.writing = false then some (.ok cmd)
  else if n.possible child cmd.buf.length = false then none
  else
    match n with
    | .again => some (.ok cmd)
    | .wrote 0 | .pipe => some (.ok { cmd with buf := [] }.written)
    | .wrote n => some (.ok { cmd with buf := cmd.buf.drop n }.written)
    | .failure cause => some (.error ("write: ".toList ++ cause))

end Cmd

/-- `io_after_poll` for the descriptor that is written to: its write buffer is empty. -/
def Inlet.afterPoll (io : Inlet) (r : Revents) : Inlet :=
  if r.pollerr || r.pollnval || (r.pollhup && !r.pollin) then { io with closed := true } else io

/-- `io_after_poll` for a descriptor that is read; an error is set in the io. -/
def afterPoll (io : Io) (r : Revents) (p : Pipe) (reads : Reads) : Option (Io × Pipe) :=
  if r.pollerr || r.pollnval || (r.pollhup && !r.pollin) then some ({ io with closed := true }, p)
  else if r.pollin then
    if reads.possible p = false then none
    else do
      let (filled, io) ← io.fill (reads.ready.length + 1) reads.ready reads.behind
      some (if filled = .closed then { io with closed := true } else io, p.take reads.ready.length)
  else some (io, p)

/-- `io_after_poll` for a pointer that may be `NULL`. -/
def afterPollPtr (io : Option Io) (r : Revents) (p : Pipe) (reads : Reads) :
    Option (Option Io × Pipe) :=
  match io with
  | none => some (none, p)
  | some io => (afterPoll io r p reads).map fun q => (some q.1, q.2)

/-- What `io_polln` returns: -1, 0 with the io that is closed, or 1. -/
inductive Polled
  | failed (cause : List Char)
  | closed (s : Stream)
  | done
deriving DecidableEq, Repr

/-- `io_before_poll` for a descriptor that is read. -/
def beforePoll (s : Stream) (io : Option Io) : Option Polled :=
  match io with
  | none => none
  | some io =>
    match io.error with
    | some cause => some (.failed cause)
    | none => if io.closed then some (.closed s) else none

namespace Cmd

variable (cmd : Cmd)

/-- The loop of `io_polln` in front of `poll`. -/
def beforePolln : Option Polled :=
  if cmd.ioIn.any (·.closed) then some (.closed .stdin)
  else (beforePoll .out cmd.ioOut).or (beforePoll .err cmd.ioErr)

/-- The loop of `io_polln` behind `poll`. -/
def afterPolln (child : Child) (stdin out err : Revents) (a : Answers) :
    Option (Polled × Cmd × Child) := do
  let cmd : Cmd := { cmd with ioIn := cmd.ioIn.map (Inlet.afterPoll · stdin) }
  let child := child.moves a.beforeOut
  let (ioOut, pipe) ← afterPollPtr cmd.ioOut out child.out a.out
  let cmd : Cmd := { cmd with ioOut := ioOut }
  let child := { child with out := pipe }
  match ioOut.bind (·.error) with
  | some cause => some (.failed cause, cmd, child)
  | none =>
    let child := child.moves a.beforeErr
    let (ioErr, pipe) ← afterPollPtr cmd.ioErr err child.err a.err
    let cmd : Cmd := { cmd with ioErr := ioErr }
    let child := { child with err := pipe }
    match ioErr.bind (·.error) with
    | some cause => some (.failed cause, cmd, child)
    | none => some (.done, cmd, child)

/-- `poll` can report these events. -/
def shows (child : Child) (stdin out err : Revents) : Bool :=
  (cmd.ioIn.isNone || child.showsStdin stdin) && (cmd.ioOut.isNone || child.out.shows out) &&
    (cmd.ioErr.isNone || child.err.shows err)

/-- `io_polln`. A `poll` with nothing to report is the same as 1 when it was not to wait. -/
def ioPolln (timeout : ℕ) (child : Child) (a : Answers) : Option (Polled × Cmd × Child) :=
  match cmd.beforePolln with
  | some polled => some (polled, cmd, child)
  | none =>
    let child := child.moves a.beforePoll
    match a.poll with
    | .ready stdin out err =>
      if cmd.shows child stdin out err then cmd.afterPolln child stdin out err a else none
    | .timedOut cause =>
      if timeout = 0 then some (.done, cmd, child)
      else some (.failed ("io: poll: ".toList ++ cause), cmd, child)
    | .interrupted => some (.done, cmd, child)
    | .again => some (.done, cmd, child)
    | .failure cause => some (.failed ("io: poll: ".toList ++ cause), cmd, child)

/-- Free the io that was found closed, unless there is something left to read in it. -/
def closeFound : Stream → Cmd
  | .stdin => { cmd with ioIn := none }
  | .out => if cmd.ioOut.all (·.rd.size = 0) then { cmd with ioOut := none } else cmd
  | .err => if cmd.ioErr.all (·.rd.size = 0) then { cmd with ioErr := none } else cmd

end Cmd

/-- Strip CR if the line is terminated by one. -/
def stripCr (s : List Char) : List Char := if s.getLast? = some '\r' then s.dropLast else s

/-- A line as its caller sees it: up to a NUL, and without the CR at the end. -/
def chomp (line : List Char) : List Char := stripCr (line.takeWhile (· ≠ '\x00'))

/-- `io_readline2` of a pointer that may be `NULL`. -/
def nextLine (io : Option Io) : Option (Option (List Char) × Option Io) :=
  match io with
  | none => some (none, none)
  | some io => io.readline2.map fun r => (r.1.map chomp, some r.2)

namespace Cmd

variable (cmd : Cmd)

/-- A line of the standard error, else of the standard output. -/
def readLine : Option (Option Result × Cmd) := do
  let (err, ioErr) ← nextLine cmd.ioErr
  let cmd : Cmd := { cmd with ioErr := ioErr }
  if err.isSome then some (some { ret := 0, err := err }, cmd)
  else
    let (out, ioOut) ← nextLine cmd.ioOut
    let cmd : Cmd := { cmd with ioOut := ioOut }
    some (if out.isSome then some { ret := 0, out := out } else none, cmd)

end Cmd

/-- The last part of `cmd_poll`: wait for the child. -/
def waitChild (timeout : ℕ) (child : Child) : Waited → Option Result
  | .failure cause => some { ret := -1, cause := some ("waitpid: ".toList ++ cause) }
  | .nothing =>
    if timeout = 0 then some { ret := 0 } else none
  | .child =>
    match child.status with
    | .running => none
    | .exited code => some { ret := 1 + code }
    | .signaled sig =>
      some { ret := -1, cause := some ("child got signal: ".toList ++ (toString sig).toList) }

namespace Cmd

variable (cmd : Cmd)

/-- `cmd_poll` behind the call of `io_polln`. -/
def afterPolling (timeout : ℕ) (child : Child) (a : Answers) : Option (Result × Cmd × Child) := do
  let (line, cmd) ← cmd.readLine
  match line with
  | some r => some (r, cmd, child)
  | none =>
    if cmd.anyOpen then some ({ ret := 0 }, cmd, child)
    else
      let child := child.moves a.beforeWait
      let r ← waitChild timeout child a.wait
      some (r, cmd, child)

/-- `cmd_poll`. -/
def cmdPoll (timeout : ℕ) (child : Child) (a : Answers) : Option (Result × Cmd × Child) := do
  let child := child.moves a.beforeWrite
  match ← cmd.writeInput child a.write with
  | .error cause => some ({ ret := -1, cause := some cause }, cmd, child)
  | .ok cmd =>
    if cmd.anyOpen = false then cmd.afterPolling timeout child a
    else
      let (polled, cmd, child) ← cmd.ioPolln timeout child a
      match polled with
      | .failed cause =>
        some ({ ret := -1, cause := some cause }, cmd, (child.moves a.beforeKill).kill)
      | .closed s =>
        (cmd.closeFound s).afterPolling timeout (child.moves a.beforeKill).kill a
      | .done => cmd.afterPolling timeout child a

end Cmd

/-! ## Runs -/

/-- A child, the command for it, and what `cmd_poll` has returned so far. -/
structure Run where
  cmd : Cmd
  child : Child
  results : List Result := []

namespace Run

/-- What `cmd_poll` has returned in the end: -1, or the exit code plus one. -/
def ended (r : Run) : Option ℤ := (r.results.map Result.ret).find? (· ≠ 0)

/-- The lines of the standard output that have been returned. -/
def outLines (r : Run) : List (List Char) := r.results.filterMap Result.out

/-- The lines of the standard error that have been returned. -/
def errLines (r : Run) : List (List Char) := r.results.filterMap Result.err

end Run

/-- What happens in a run. -/
inductive Event
  | move (m : Move)
  | call (a : Answers)
deriving DecidableEq, Repr

/-- One step of a run: the caller stops once `cmd_poll` has not returned 0. -/
def step (timeout : ℕ) (r : Run) : Event → Option Run
  | .move m => some { r with child := r.child.move m }
  | .call a =>
    if r.ended ≠ none then none
    else
      (r.cmd.cmdPoll timeout r.child a).map fun q =>
        { cmd := q.2.1, child := q.2.2, results := r.results ++ [q.1] }

/-- A run at its start. -/
def start (flags : Flags) (buf : List Char) : Option Run :=
  (cmdStart flags buf).map fun cmd => { cmd := cmd, child := childStart flags }

end Fdm.Command
