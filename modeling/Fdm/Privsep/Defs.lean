import Fdm.Command.Defs
import Fdm.Lib.Memory
import Mathlib.Logic.Function.Basic

/-!
# Messages between two processes

`privsep.c` over the two ends of a socket pair, each a `struct io` with both of its buffers; one
process is the parent, the other a child. Every system call is a step of its own, so that the
other process can do something between any two of them.

* `poll` fails only with `EINTR`, and times out only when it is given a timeout;
* `write` and `read` may move fewer bytes than they could;
* a process whose `privsep_recv` has failed calls `fatalx`. What one does after a failed
  `privsep_send` is left open.
-/

namespace Fdm

/-- `buffer_write`. -/
def Buffer.write (b : Buffer) (data : List Char) : Option Buffer :=
  if data = [] then none else (b.ensure data.length).bind fun b => b.add data

namespace Privsep

open Lib.Memory

/-! ## Messages -/

/-- `enum msgtype`. -/
inductive MsgType
  | action
  | exit
  | done
  | command
deriving DecidableEq, Repr

namespace MsgType

def code : MsgType → ℕ
  | action => 0
  | exit => 1
  | done => 2
  | command => 3

def ofCode : ℕ → MsgType
  | 0 => action
  | 1 => exit
  | 2 => done
  | _ => command

/-- The type of a message is read back. -/
theorem ofCode_code (t : MsgType) : ofCode t.code = t := by cases t <;> rfl

theorem code_lt (t : MsgType) : t.code < 256 ^ 4 := by cases t <;> decide

end MsgType

/-- `n` bytes. -/
abbrev Block (n : ℕ) := { s : List Char // s.length = n }

/-- `struct msg`; `data` is the `struct msgdata` in it, which takes `n` bytes. -/
structure Msg (n : ℕ) where
  id : UInt32
  type : MsgType
  size : UInt64
  data : Block n
deriving DecidableEq

/-- `sizeof (struct msg)`. -/
def sizeofMsg (n : ℕ) : ℕ := 16 + n

namespace Msg

variable {n : ℕ}

/-- The memory of a message. -/
def image (msg : Msg n) : List Char :=
  bytesOf 4 msg.id.toNat ++ (bytesOf 4 msg.type.code ++
    (bytesOf 8 msg.size.toNat ++ msg.data.val))

/-- The message in that memory. -/
def ofImage (s : List Char) : Msg n where
  id := UInt32.ofNat (valueOf (s.take 4))
  type := .ofCode (valueOf ((s.drop 4).take 4))
  size := UInt64.ofNat (valueOf ((s.drop 8).take 8))
  data := ⟨(s.drop 16).takeD n '\x00', List.takeD_length _ _ _⟩

/-- The image of a message has the size of `struct msg`. -/
theorem length_image (msg : Msg n) : msg.image.length = sizeofMsg n := by
  simp only [image, List.length_append, length_bytesOf, msg.data.property, sizeofMsg]
  omega

/-- The fields of an image, one behind another. -/
theorem ofImage_append (a b c : List Char) (d : Block n) (ha : a.length = 4)
    (hb : b.length = 4) (hc : c.length = 8) :
    ofImage (a ++ (b ++ (c ++ d.val))) =
      ⟨UInt32.ofNat (valueOf a), .ofCode (valueOf b), UInt64.ofNat (valueOf c), d⟩ := by
  have hdrop4 : (a ++ (b ++ (c ++ d.val))).drop 4 = b ++ (c ++ d.val) := List.drop_left' ha
  have hdrop8 : (a ++ (b ++ (c ++ d.val))).drop 8 = c ++ d.val := by
    rw [show 8 = 4 + 4 from rfl, ← List.drop_drop, hdrop4, List.drop_left' hb]
  have hdrop16 : (a ++ (b ++ (c ++ d.val))).drop 16 = d.val := by
    rw [show 16 = 8 + 8 from rfl, ← List.drop_drop, hdrop8, List.drop_left' hc]
  have hlen : d.val.length = n := d.property
  have hdata : d.val.takeD n '\x00' = d.val := by
    rw [List.takeD_eq_take _ hlen.ge, List.take_of_length_le hlen.le]
  rw [ofImage, Msg.mk.injEq]
  refine ⟨?_, ?_, ?_, Subtype.ext ?_⟩
  · rw [List.take_left' ha]
  · rw [hdrop4, List.take_left' hb]
  · rw [hdrop8, List.take_left' hc]
  · show ((a ++ (b ++ (c ++ d.val))).drop 16).takeD n '\x00' = d.val
    rw [hdrop16, hdata]

/-- A message is read back from its image. -/
theorem ofImage_image (msg : Msg n) : ofImage msg.image = msg := by
  rw [image, ofImage_append _ _ _ _ (length_bytesOf _ _) (length_bytesOf _ _) (length_bytesOf _ _),
    valueOf_bytesOf msg.id.toNat_lt, valueOf_bytesOf msg.type.code_lt,
    valueOf_bytesOf msg.size.toNat_lt, UInt32.ofNat_toNat, UInt64.ofNat_toNat, MsgType.ofCode_code]

/-- Different messages have different images. -/
theorem image_injective : Function.Injective (image : Msg n → List Char) :=
  Function.LeftInverse.injective ofImage_image

end Msg

/-- A message and what comes with it. -/
abbrev Frame (n : ℕ) := Msg n × List Char

/-- The bytes that are sent for it. -/
def Frame.wire {n : ℕ} (f : Frame n) : List Char := f.1.image ++ f.2

/-- What a `struct msgbuf` holds; there is nothing in the one that is missing. -/
abbrev Msgbuf := { buf : List Char // buf.length < 2 ^ 64 }

/-- What `privsep_send` makes of its arguments. -/
def frame {n : ℕ} (msg : Msg n) (buf : Msgbuf) : Frame n :=
  ({ msg with size := UInt64.ofNat buf.val.length }, buf.val)

/-! ## A process -/

/-- Where a process polls: in the `io_flush` behind the header, with what is to be written
then; in the one behind the rest; in the two `io_wait` of `privsep_recv`; or in a call of
`io_polln` of its own. -/
inductive Call (n : ℕ)
  | header (buf : List Char)
  | payload
  | recv
  | body (msg : Msg n)
  | poll
deriving DecidableEq

/-- What a process is about to do: `poll`, `write` (and `read` then, if there is something), or
`read`, each for a call. -/
inductive Pc (n : ℕ)
  | idle
  | poll (c : Call n)
  | push (c : Call n) (pollin : Bool)
  | fill (c : Call n)
  | stopped
deriving DecidableEq

/-- The call that a process is in. -/
def Pc.call {n : ℕ} : Pc n → Option (Call n)
  | poll c | push c _ | fill c => some c
  | idle | stopped => none

/-- A process, its end of the socket pair and the messages it has sent and received. -/
structure Party (n : ℕ) where
  io : Io
  wr : Buffer
  pc : Pc n := .idle
  /-- What the other process has written and this one has not read. -/
  queue : List Char := []
  sent : List (Frame n) := []
  received : List (Frame n) := []

namespace Party

variable {n : ℕ} (p : Party n)

/-- `io_create`. -/
def create (eol : List Char) : Option (Party n) := do
  let io ← Io.create eol
  let wr ← Buffer.create ioBlocksize
  some { io := io, wr := wr }

/-- `exit`, which closes the socket. -/
def stop : Party n := { p with pc := .stopped }

/-- `io_write`. -/
def ioWrite (data : List Char) : Option (Party n) :=
  if p.io.error.isSome then some p else (p.wr.write data).map fun wr => { p with wr := wr }

/-- Something has happened to the read buffer. -/
def withRd (rd : Buffer) : Party n := { p with io := { p.io with rd := rd } }

/-- `privsep_send` from its second `io_flush` on. -/
def payload : Party n :=
  if p.wr.size ≠ 0 then { p with pc := .poll .payload } else { p with pc := .idle }

/-- `privsep_send` from its first `io_flush` on. -/
def header (buf : List Char) : Option (Party n) :=
  if p.wr.size ≠ 0 then some { p with pc := .poll (.header buf) }
  else if buf = [] then some { p with pc := .idle }
  else (p.ioWrite buf).map payload

/-- `privsep_send`. -/
def send (f : Frame n) : Option (Party n) :=
  ({ p with sent := p.sent ++ [f] }.ioWrite f.1.image).bind fun p => p.header f.2

/-- `privsep_recv` returns 0. What it frees when it is given no `struct msgbuf` is in the frame as
well. -/
def returned (f : Frame n) : Party n := { p with pc := .idle, received := p.received ++ [f] }

/-- `privsep_recv` from its second `io_wait` on. -/
def body (msg : Msg n) : Option (Party n) :=
  if p.io.rd.size < msg.size.toNat then some { p with pc := .poll (.body msg) }
  else if p.io.error.isSome then some p.stop
  else
    (p.io.rd.read msg.size.toNat).map fun (buf, rd) => (p.withRd rd).returned (msg, buf)

/-- `privsep_recv`. -/
def recv : Option (Party n) :=
  if p.io.rd.size < sizeofMsg n then some { p with pc := .poll .recv }
  else if p.io.error.isSome then some p.stop
  else
    (p.io.rd.read (sizeofMsg n)).bind fun (s, rd) =>
      let msg := Msg.ofImage s
      if msg.size = 0 then some ((p.withRd rd).returned (msg, [])) else (p.withRd rd).body msg

/-- `io_poll` has returned 1. -/
def resume : Call n → Option (Party n)
  | .header buf => p.header buf
  | .payload => some p.payload
  | .recv => p.recv
  | .body msg => p.body msg
  | .poll => some { p with pc := .idle }

/-- `io_poll` has returned something else. -/
def fail : Call n → Party n
  | .recv | .body _ => p.stop
  | _ => { p with pc := .idle }

/-- The process has ended. -/
def stopped : Bool :=
  match p.pc with
  | .stopped => true
  | _ => false

/-- The other process has written something. -/
def arrive (data : List Char) : Party n := { p with queue := p.queue ++ data }

/-- `IOF_CLOSED` is set. -/
def close : Party n := { p with io := { p.io with closed := true } }

/-- `io->error` is set. -/
def fault (cause : List Char) : Party n := { p with io := { p.io with error := some cause } }

end Party

/-! ## System calls -/

/-- What `poll` does. -/
inductive Polling
  | ready (r : Command.Revents)
  | interrupted
  | timedOut
deriving DecidableEq, Repr

/-- What `read` does. -/
inductive Got
  | bytes (k : ℕ)
  | again
  | eof
  | failure (cause : List Char)
deriving DecidableEq, Repr

/-- The bytes that are read. -/
def Got.moved : Got → ℕ
  | bytes k => k
  | _ => 0

namespace Party

variable {n : ℕ} (p : Party n)

/-- `io_polln` up to the first thing it does about the events. -/
def polled (c : Call n) (a : Polling) : Option (Party n) :=
  if p.io.error.isSome || p.io.closed then some (p.fail c)
  else
    match a with
    | .interrupted => p.resume c
    | .timedOut =>
      match c with
      | .poll => some (p.fail c)
      | _ => none
    | .ready r =>
      if r.pollerr || r.pollnval || (r.pollhup && !r.pollin) then p.close.resume c
      -- `io_push` does nothing with an empty buffer
      else if r.pollout && p.wr.size ≠ 0 then some { p with pc := .push c r.pollin }
      else if r.pollin then some { p with pc := .fill c }
      else p.resume c

/-- `io_after_poll` behind a successful `io_push`. -/
def pushed (c : Call n) (pollin : Bool) : Option (Party n) :=
  if pollin then some { p with pc := .fill c } else p.resume c

/-- `io_push` without bytes that are written. -/
def notWritten (c : Call n) (pollin : Bool) : Command.Written → Option (Party n)
  | .wrote (_ + 1) => none
  | .wrote 0 | .pipe => p.close.resume c
  | .again => p.pushed c pollin
  | .failure cause => some ((p.fault ("io: write: ".toList ++ cause)).fail c)

/-- `io_fill` from its label on. -/
def filled (c : Call n) (g : Got) : Option (Party n) :=
  (p.io.rd.ensure ioWatermark).bind fun rd =>
    match g with
    | .bytes k =>
      if 0 < k ∧ k ≤ rd.free ∧ k ≤ p.queue.length then
        (rd.add (p.queue.take k)).map fun rd =>
          { p.withRd rd with queue := p.queue.drop k, pc := .fill c }
      else none
    | .again => (p.withRd rd).resume c
    | .eof => if p.queue = [] then (p.withRd rd).close.resume c else none
    | .failure cause => some (((p.withRd rd).fault ("io: read: ".toList ++ cause)).fail c)

end Party

/-! ## Both processes -/

inductive Side
  | parent
  | child
deriving DecidableEq, Repr

def Side.other : Side → Side
  | parent => child
  | child => parent

@[simp] theorem Side.other_other (x : Side) : x.other.other = x := by cases x <;> rfl

theorem Side.other_ne (x : Side) : x.other ≠ x := by cases x <;> decide

/-- A process calls a function, a system call does something, or the process ends. -/
inductive Event (n : ℕ)
  | send (msg : Msg n) (buf : Msgbuf)
  | recv
  | poll
  | polled (a : Polling)
  | wrote (w : Command.Written)
  | read (g : Got)
  | exit

abbrev Sys (n : ℕ) := Side → Party n

/-- One process of the two has changed. -/
def Sys.set {n : ℕ} (s : Sys n) (x : Side) (p : Party n) : Sys n := fun y => if y = x then p else s y

/-- The socket pair that `child_start` makes. -/
def create {n : ℕ} : Option (Sys n) := do
  let p ← Party.create ioCrlf
  let c ← Party.create ioLf
  some fun
    | .parent => p
    | .child => c

/-- `write` moves bytes from the buffer of one process to the queue of the other. -/
def wrote {n : ℕ} (s : Sys n) (x : Side) (c : Call n) (pollin : Bool) (k : ℕ) : Option (Sys n) :=
  if (s x.other).stopped then none
  else
    ((s x).wr.read k).bind fun (data, wr) =>
      ({ s x with wr := wr }.pushed c pollin).map fun p =>
        (s.set x p).set x.other ((s x.other).arrive data)

/-- One step of one of the processes. -/
def step {n : ℕ} (s : Sys n) : Side × Event n → Option (Sys n)
  | (x, e) =>
    match (s x).pc, e with
    | .idle, .send msg buf => ((s x).send (frame msg buf)).map (s.set x)
    | .idle, .recv => ((s x).recv).map (s.set x)
    | .idle, .poll => some (s.set x { s x with pc := .poll .poll })
    | .poll c, .polled a => ((s x).polled c a).map (s.set x)
    | .push c pollin, .wrote (.wrote (k + 1)) => wrote s x c pollin (k + 1)
    | .push c pollin, .wrote w => ((s x).notWritten c pollin w).map (s.set x)
    | .fill c, .read g => ((s x).filled c g).map (s.set x)
    | .stopped, _ => none
    | _, .exit => some (s.set x (s x).stop)
    | _, _ => none

end Privsep

end Fdm
