import Fdm.Lib.Runs
import Mathlib.Logic.Function.Basic

/-!
# The parent process

The loop of `main` after the configuration is read: the parent starts a fetch child for each
account, handles the messages of its children, starts the delivery and command children that the
fetch children ask for, and waits for those that have ended. One step is what the parent does
about one message, one call of `wait_children`, one dead socket, or something that a child does.
-/

namespace Fdm.Parent

/-! ## Children and messages -/

/-- `struct msg` on the way to the parent. -/
inductive Message
  | action (id : ℕ) (wrback : Bool)
  | command (id : ℕ)
  | done (error : ℕ)
  | exit
deriving DecidableEq, Repr

/-- `struct child_deliver_data`: the fetch child that asked, and what it asked for. -/
structure Request where
  child : ℕ
  msgid : ℕ
  command : Bool
  wrback : Bool := false
deriving DecidableEq, Repr

/-- `struct child`. `addr` stands for its address; a fetch child has no request. -/
structure Child where
  addr : ℕ
  pid : ℕ
  parent : Option ℕ := none
  io : Bool := true
  data : Option Request := none
deriving DecidableEq, Repr

/-- A `MSG_DONE` for a fetch child, and the child whose outcome it brings, if there is one. -/
structure Reply where
  child : ℕ
  id : ℕ
  error : ℕ
  command : Bool
  reporter : Option ℕ := none
deriving DecidableEq, Repr

/-- How a process ended, as `waitpid` says; it is not asked about stopped processes. -/
inductive Status
  | exited (code : ℕ)
  | signaled (sig : ℕ)
deriving DecidableEq, Repr

/-- What `waitpid` returns: a child, zero, or -1 with `ECHILD`. -/
inductive Waited
  | pid (pid : ℕ) (status : Status)
  | nothing
  | noChild
deriving DecidableEq, Repr

/-- The parent, the processes it has started, and what has happened. The functions are by the
address of a child. -/
structure Sys where
  next : ℕ := 0
  children : List Child := []
  deadChildren : List Child := []
  res : Bool := false
  /-- `fatalx` has ended the parent. -/
  fatal : Bool := false
  /-- The messages of a child that the parent has not handled. -/
  inbox : ℕ → List Message := fun _ => []
  /-- The process has ended. -/
  ended : ℕ → Bool := fun _ => false
  /-- The outcome that a delivery or command child has reported. -/
  report : ℕ → Option ℕ := fun _ => none
  /-- The parent has sent a `MSG_EXIT`. -/
  told : ℕ → Bool := fun _ => false
  asked : List Request := []
  sent : List Reply := []
  killed : List ℕ := []
  reaped : List (ℕ × Status) := []

/-- `DELIVER_FAILURE`, which is `MATCH_TRUE` as well. -/
def deliverFailure : ℕ := 1

/-! ## Waiting for children -/

/-- A child that ended otherwise than with `exit(0)`. -/
def Status.bad : Status → Bool
  | exited code => code ≠ 0
  | signaled _ => true

/-- What `wait_children` does about a process that has ended. -/
def reap (pid : ℕ) (status : Status) (s : Sys) : Sys :=
  let s := { s with reaped := s.reaped ++ [(pid, status)] }
  match s.children.find? fun child => child.pid = pid with
  | none => s
  | some child =>
    let children := s.children.erase child
    { s with
      children := children
      deadChildren := s.deadChildren ++ [{ child with io := false }]
      killed := s.killed ++
        (children.filter fun child2 => child2.parent = some child.addr).map Child.pid }

/-- `wait_children` with what `waitpid` returns in turn: its result, and `none` while it waits.
`retcode` is collected, but the function only returns from the `switch`. -/
def waitChildren : List Waited → ℕ → Sys → Option (ℕ × Sys)
  | [], _, _ => none
  | .nothing :: _, _, s => some (0, s)
  | .noChild :: _, _, s => some (0, s)
  | .pid pid status :: ws, retcode, s =>
    waitChildren ws (if status.bad then 1 else retcode) (reap pid status s)

/-! ## Messages -/

/-- `child_start`. -/
def childStart (pid : ℕ) (parent : Option ℕ) (data : Option Request) (s : Sys) : Sys :=
  { s with
    next := s.next + 1
    children := s.children ++ [{ addr := s.next, pid := pid, parent := parent, data := data }] }

/-- The socket of a child is open: `child->io != NULL`. -/
def Sys.open (s : Sys) (a : ℕ) : Bool := s.children.any fun child => child.addr = a && child.io

/-- `privsep_send` of a `MSG_EXIT`. -/
def sendExit (a : ℕ) (s : Sys) : Sys :=
  if s.ended a then { s with fatal := true } else { s with told := Function.update s.told a true }

/-- `parent_fetch_error`. -/
def parentFetchError (a id : ℕ) (command : Bool) (s : Sys) : Sys :=
  if s.ended a then { s with fatal := true }
  else { s with sent := s.sent ++ [⟨a, id, deliverFailure, command, none⟩] }

/-- What the calls of the parent about a message give: whether `mail_receive` succeeds, `mail_open`
and `shm_owner`, and the pid of a child that is started. -/
structure Calls where
  receives : Bool := true
  opens : Bool := true
  pid : ℕ := 0
deriving DecidableEq, Repr

/-- `parent_fetch`, and what `main` does about its result. -/
def parentFetch (a : ℕ) (msg : Message) (calls : Calls) (s : Sys) : Sys :=
  match msg with
  | .action id wrback =>
    if !calls.receives || (wrback && !calls.opens) then parentFetchError a id false s
    else childStart calls.pid (some a) (some ⟨a, id, false, wrback⟩) s
  | .command id =>
    if !calls.receives then parentFetchError a id true s
    else childStart calls.pid (some a) (some ⟨a, id, true, false⟩) s
  | .done _ => { s with fatal := true }
  | .exit => sendExit a s

/-- The hook of `parent_deliver`: the outcome, when the mail of a write-back delivery has to be
received. -/
def hook (r : Request) (error : ℕ) (calls : Calls) : ℕ :=
  if !r.command && r.wrback && error = 0 && !calls.receives then deliverFailure else error

/-- `parent_deliver`, and what `main` does about its result. -/
def parentDeliver (a : ℕ) (r : Request) (msg : Message) (calls : Calls) (s : Sys) : Sys :=
  match msg with
  | .done error =>
    let reply : Reply := ⟨r.child, r.msgid, hook r error calls, r.command, some a⟩
    sendExit a
      (if s.open r.child && !s.ended r.child then { s with sent := s.sent ++ [reply] } else s)
  | _ => { s with fatal := true }

/-- The parent handles the first message of a child. -/
def handle (child : Child) (calls : Calls) (s : Sys) : Option Sys :=
  match s.inbox child.addr with
  | [] => none
  | msg :: msgs =>
    let s := { s with inbox := Function.update s.inbox child.addr msgs }
    match child.data with
    | none => some (parentFetch child.addr msg calls s)
    | some r => some (parentDeliver child.addr r msg calls s)

/-- `main` about a socket that `io_polln` has found dead. -/
def closeDead (a : ℕ) (s : Sys) : Sys :=
  { s with
    children := s.children.map fun child => if child.addr = a then { child with io := false } else child
    killed := s.killed ++ (s.children.filter fun child => child.addr = a).map Child.pid }

/-! ## Steps -/

inductive Act
  /-- A fetch child is started. -/
  | start (pid : ℕ)
  /-- A fetch child sends a message. -/
  | asks (child : Child) (msg : Message)
  /-- A delivery or command child sends its outcome. -/
  | reports (child : Child) (error : ℕ)
  /-- A process ends. -/
  | ends (child : Child)
  /-- The parent handles the first message of a child. -/
  | handle (child : Child) (calls : Calls)
  /-- A call of `wait_children`: the processes that `waitpid` returns, before it returns zero or
  -1 with `ECHILD`. -/
  | wait (exits : List (ℕ × Status)) (noChild : Bool)
  /-- The parent finds a dead socket. -/
  | dead (child : Child)
  /-- A message of a child is cut off, or `fork` or `socketpair` fails: the parent ends. -/
  | fails

/-- The results of `waitpid` in a call of `wait_children`. -/
def results (exits : List (ℕ × Status)) (noChild : Bool) : List Waited :=
  exits.map (fun e => .pid e.1 e.2) ++ [if noChild then .noChild else .nothing]

/-- The request of a message. -/
def Message.request (a : ℕ) : Message → Option Request
  | action id wrback => some ⟨a, id, false, wrback⟩
  | command id => some ⟨a, id, true, false⟩
  | _ => none

/-- A message that `child_fetch` sends. -/
def Message.fromFetch : Message → Bool
  | done _ => false
  | _ => true

/-- A child whose process has not ended and whose socket is open. -/
def Sys.live (s : Sys) (child : Child) : Prop :=
  child ∈ s.children ∧ child.io = true ∧ s.ended child.addr = false

instance (s : Sys) (child : Child) : Decidable (s.live child) := by
  unfold Sys.live
  infer_instance

/-- No child has a pid. -/
def Sys.freePid (s : Sys) (pid : ℕ) : Prop := ∀ child ∈ s.children, child.pid ≠ pid

instance (s : Sys) (pid : ℕ) : Decidable (s.freePid pid) := by
  unfold Sys.freePid
  infer_instance

/-- The processes are children that have ended, each of them once. -/
def Sys.canReap (s : Sys) (exits : List (ℕ × Status)) : Prop :=
  (exits.map Prod.fst).Nodup ∧
    ∀ pid ∈ exits.map Prod.fst, ∃ child ∈ s.children, child.pid = pid ∧ s.ended child.addr = true

instance (s : Sys) (exits : List (ℕ × Status)) : Decidable (s.canReap exits) := by
  unfold Sys.canReap
  infer_instance

/-- One step. The kernel gives a new process a pid that no child has. -/
def step (s : Sys) : Act → Option Sys
  | .start pid =>
    if s.fatal = false ∧ s.freePid pid then some (childStart pid none none s) else none
  | .asks child msg =>
    if s.live child ∧ child.data = none ∧ msg.fromFetch = true then
      some { s with
        inbox := Function.update s.inbox child.addr (s.inbox child.addr ++ [msg])
        asked := s.asked ++ (msg.request child.addr).toList }
    else none
  | .reports child error =>
    if s.live child ∧ child.data ≠ none ∧ s.report child.addr = none then
      some { s with
        inbox := Function.update s.inbox child.addr (s.inbox child.addr ++ [.done error])
        report := Function.update s.report child.addr (some error) }
    else none
  | .ends child =>
    if child ∈ s.children then
      some { s with ended := Function.update s.ended child.addr true }
    else none
  | .handle child calls =>
    if s.fatal = false ∧ child ∈ s.children ∧ child.io = true ∧ s.freePid calls.pid then
      handle child calls s
    else none
  | .wait exits noChild =>
    if s.fatal = false ∧ s.canReap exits then
      (waitChildren (results exits noChild) 0 s).map fun (retcode, s) =>
        { s with res := s.res || retcode ≠ 0 }
    else none
  | .dead child =>
    if s.fatal = false ∧ child ∈ s.children ∧ child.io = true ∧
        (s.ended child.addr = true ∨ s.told child.addr = true) then
      some (closeDead child.addr s)
    else none
  | .fails => if s.fatal = false then some { s with fatal := true } else none

/-- The exit status of `main` when it leaves its loop, `true` for a failure. -/
def exitStatus (s : Sys) (interrupted : Bool) : Bool := s.res || interrupted

end Fdm.Parent
