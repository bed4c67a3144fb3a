import Fdm.Lib.Runs
import Fdm.Rules.Defs
import Mathlib.Algebra.Group.Nat.Defs
import Mathlib.Logic.Function.Basic

/-!
# The loop of an account

`fetch_account`, `fetch_match` and `fetch_deliver` (`child-fetch.c`), with a mail context for each
mail that is queued. One step is one call of `mail_match` or `mail_deliver`, the part of the loop
behind them up to `fetch_poll`, or `fetch_poll`. The fetcher is the result of each call of its
state function; the parent is the replies that come in.
-/

namespace Fdm.Account

open Rules

/-- What the state function of the fetcher returns, with the mail that it has fetched. -/
inductive FetchRet (σ : Type)
  | error
  | exit
  | again
  | block
  | mail (m : MailData σ)

/-- The settings: `conf`, the account, and its `struct fetch`. -/
structure Conf (κ δ σ : Type) where
  rules : Rules.Conf κ δ
  timeout : ℕ
  queueHigh : ℕ
  queueLow : ℕ
  purgeAfter : ℕ := 0
  maxSize : ℕ
  delBig : Bool := false
  keepAll : Bool := false
  /-- `a->keep` -/
  keep : Bool := false
  /-- `a->fetch->commit` is there. -/
  commit : Bool := true
  /-- `find_body` and `trim_from`. -/
  trimFrom : MailData σ → MailData σ
  /-- The tags, the received header and the wrapped lines. -/
  fillIn : MailData σ → MailData σ

/-- Where the loop is. -/
inductive At (ρ : Type)
  | top
  | matching (msgp : Option (Msg ρ))
  | delivering (msgp : Option (Msg ρ))
  | fetching
  | polling (timeout : ℕ)
  | finished
  | aborted
  | fatal

/-- A mail that has left the queue: its decision then, and the final one. -/
structure Left where
  idx : ℕ
  decision : Decision
  final : Decision
deriving DecidableEq, Repr

/-- A call of `commit` that has worked, for a mail that was queued or for one that was too big. -/
inductive Commit
  | queued (idx : ℕ) (decision : Decision)
  | oversize
deriving DecidableEq, Repr

/-- A call of the state function: whether `FETCH_EMPTY` was set, and how many mails were queued. -/
structure Call where
  empty : Bool
  mails : ℕ
deriving DecidableEq, Repr

/-- The state of the loop. While a queue is gone through, `todo` is the part of it behind the mails
that have been tried. -/
structure Loop (κ δ υ σ γ ρ : Type) where
  pc : At ρ := .top
  matchq : List (MailCtx κ δ υ σ) := []
  deliverq : List (MailCtx κ δ υ σ) := []
  todo : List (MailCtx κ δ υ σ) := []
  world : γ
  /-- The complete messages in the buffer of `pio`. -/
  buffer : List (Msg ρ) := []
  idx : ℕ := 0
  queued : ℕ := 0
  blocked : ℕ := 0
  dropped : ℕ := 0
  kept : ℕ := 0
  holding : Bool := false
  complete : Bool := false
  purge : Bool := false
  lastTotal : ℕ := 0
  lastDropped : ℕ := 0
  -- what has happened: mails put on the queue, mails that have left it, commits and fetches
  enqueued : List ℕ := []
  left : List Left := []
  commits : List Commit := []
  calls : List Call := []
  -- requests to the parent by the id of their mail, the replies that mails have taken, and the
  -- bytes that were sent
  requests : List ℕ := []
  taken : List ℕ := []
  sentData : ℕ → List Char := fun _ => []
  /-- The reply that this pass has received, until a mail has taken it. -/
  hand : Option ℕ := none
  /-- A request has been sent in this pass. -/
  asked : Bool := false

variable {κ δ υ σ γ ρ : Type}

/-- The mails that are queued. -/
def Loop.mails (s : Loop κ δ υ σ γ ρ) : List (MailCtx κ δ υ σ) := s.matchq ++ s.todo ++ s.deliverq

/-- What comes in from outside in one step. -/
structure Input (σ ρ : Type) where
  /-- `commit` or `fetch_poll` fails. -/
  fails : Bool := false
  fetch : FetchRet σ := .block
  /-- The state function clears `FETCH_PURGE`. -/
  purged : Bool := false
  /-- `ARRAY_LENGTH(&iol)`, after `fill`. -/
  sockets : ℕ := 1
  /-- Messages that are read into the buffer of `pio`. -/
  arrivals : List (Msg ρ) := []

/-! ## The queues -/

/-- A mail takes the message of this pass. -/
def takes (this : MailCtx κ δ υ σ) (msgp : Option (Msg ρ)) : Bool :=
  this.msgid ≠ 0 && (ownMsg this msgp).isSome

/-- A mail has sent a request in a call. -/
def asks (this mctx : MailCtx κ δ υ σ) : Bool := this.msgid = 0 && mctx.msgid ≠ 0

/-- The world behind a call, and what has happened. -/
def Loop.called (s : Loop κ δ υ σ γ ρ) (this : MailCtx κ δ υ σ) (msgp : Option (Msg ρ))
    (ran : Ran κ δ υ σ γ) : Loop κ δ υ σ γ ρ :=
  { s with
    world := ran.world
    taken := if takes this msgp then s.taken ++ [this.idx] else s.taken
    hand := if takes this msgp then none else s.hand
    requests := if asks this ran.mctx then s.requests ++ [this.idx] else s.requests
    sentData :=
      if asks this ran.mctx then Function.update s.sentData this.idx ran.mctx.mail.data
      else s.sentData
    asked := s.asked || asks this ran.mctx }

section

variable (env : Env κ δ υ σ γ ρ) (conf : Conf κ δ σ)

/-- The final decision about a mail. -/
def finalDecision (decision : Decision) : Decision :=
  if conf.keepAll || conf.keep then .keep else decision

/-- `fetch_dequeue`, of a mail that is the next one. -/
def fetchDequeue (fails : Bool) (mctx : MailCtx κ δ υ σ) (s : Loop κ δ υ σ γ ρ) :
    Loop κ δ υ σ γ ρ :=
  let decision : Decision := finalDecision conf mctx.mail.decision
  let s :=
    { s with
      dropped := if decision = Decision.drop then s.dropped + 1 else s.dropped
      kept := if decision = Decision.keep then s.kept + 1 else s.kept }
  if conf.commit && fails then { s with pc := .aborted, matchq := s.matchq ++ [mctx] }
  else
    { s with
      queued := s.queued - 1
      left := s.left ++ [⟨mctx.idx, mctx.mail.decision, decision⟩]
      commits := if conf.commit then s.commits ++ [.queued mctx.idx decision] else s.commits }

/-- `fetch_match`, from the next mail; whether a message is sent to the parent. -/
def fetchMatch (fails : Bool) (msgp : Option (Msg ρ)) (s : Loop κ δ υ σ γ ρ) :
    Bool × Loop κ δ υ σ γ ρ :=
  match s.todo with
  | [] => (false, { s with pc := .delivering msgp, todo := s.deliverq, deliverq := [] })
  | this :: todo =>
    let ran := mailMatch env conf.rules this s.world msgp
    let s := { s.called this msgp ran with todo := todo }
    (asks this ran.mctx,
      match ran.ret with
      | .mailError => { s with pc := .aborted, matchq := s.matchq ++ [ran.mctx] }
      | .mailDeliver => { s with deliverq := s.deliverq ++ [ran.mctx] }
      | .mailDone => fetchDequeue conf fails ran.mctx s
      | .mailBlocked => { s with matchq := s.matchq ++ [ran.mctx], blocked := s.blocked + 1 }
      | .fatal => { s with pc := .fatal, matchq := s.matchq ++ [ran.mctx] }
      | _ => { s with matchq := s.matchq ++ [ran.mctx] })

/-- `fetch_deliver`, from the next mail; whether a message is sent to the parent. -/
def fetchDeliver (msgp : Option (Msg ρ)) (s : Loop κ δ υ σ γ ρ) : Bool × Loop κ δ υ σ γ ρ :=
  match s.todo with
  | [] => (false, { s with pc := .fetching })
  | this :: todo =>
    let ran := mailDeliver env this s.world msgp
    let s := { s.called this msgp ran with todo := todo }
    (asks this ran.mctx,
      match ran.ret with
      | .mailError => { s with pc := .aborted, deliverq := s.deliverq ++ [ran.mctx] }
      | .mailMatch => { s with matchq := s.matchq ++ [ran.mctx] }
      | .mailBlocked => { s with deliverq := s.deliverq ++ [ran.mctx], blocked := s.blocked + 1 }
      | .fatal => { s with pc := .fatal, deliverq := s.deliverq ++ [ran.mctx] }
      | _ => { s with deliverq := s.deliverq ++ [ran.mctx] })

/-! ## The fetcher -/

/-- `fetch_purge`, and the flag; the counters are `u_int`. -/
def fetchPurge (s : Loop κ δ υ σ γ ρ) : Loop κ δ υ σ γ ρ :=
  let n := (s.dropped + s.kept) % 2 ^ 32
  if conf.purgeAfter = 0 then s
  else if n = s.lastTotal ∨ n % conf.purgeAfter ≠ 0 then s
  else if s.lastDropped = s.dropped % 2 ^ 32 then { s with lastTotal := n }
  else { s with lastTotal := n, lastDropped := s.dropped % 2 ^ 32, purge := true }

/-- `fetch_enqueue`, and back to the top of the loop. -/
def fetchEnqueue (fails : Bool) (m : MailData σ) (s : Loop κ δ υ σ γ ρ) : Loop κ δ υ σ γ ρ :=
  if conf.maxSize < m.data.length then
    if !conf.delBig then { s with pc := .aborted }
    else if !conf.commit then { s with pc := .top }
    else if fails then { s with pc := .aborted }
    else { s with pc := .top, commits := s.commits ++ [.oversize] }
  else
    let m := conf.trimFrom m
    if m.data.length = 0 then { s with pc := .aborted }
    else
      let idx := s.idx + 1
      let m := conf.fillIn { m with decision := .drop }
      { s with
        pc := .top
        idx := idx
        matchq := s.matchq ++ [newCtx conf.rules idx m]
        queued := s.queued + 1
        enqueued := s.enqueued ++ [idx] }

/-- The timeout of `fetch_poll`. -/
def pollTimeout (sockets : ℕ) (s : Loop κ δ υ σ γ ρ) : ℕ :=
  if s.queued = 0 ∧ sockets = 1 then 0
  else if s.queued ≠ 0 ∧ s.blocked ≠ s.queued then 0
  else conf.timeout

/-- Behind the fetcher: the end, or `fetch_poll`. -/
def preparePoll (sockets : ℕ) (s : Loop κ δ υ σ γ ρ) : Loop κ δ υ σ γ ρ :=
  if s.complete ∧ s.queued = 0 then { s with pc := .finished }
  else { s with pc := .polling (pollTimeout conf sockets s) }

/-- The holding flag. -/
def updateHolding (s : Loop κ δ υ σ γ ρ) : Loop κ δ υ σ γ ρ :=
  let s := if s.queued ≤ conf.queueLow then { s with holding := false } else s
  if conf.queueHigh ≤ s.queued then { s with holding := true } else s

/-- What the state function has returned. -/
def handleFetch (i : Input σ ρ) (s : Loop κ δ υ σ γ ρ) : Loop κ δ υ σ γ ρ :=
  match i.fetch with
  | .error => { s with pc := .aborted }
  | .exit => preparePoll conf i.sockets { s with complete := true }
  | .again => { s with pc := .top }
  | .block => preparePoll conf i.sockets s
  | .mail m => fetchEnqueue conf i.fails m s

/-- The loop behind `fetch_deliver`, up to `fetch_poll`. -/
def callFetch (i : Input σ ρ) (s : Loop κ δ υ σ γ ρ) : Loop κ δ υ σ γ ρ :=
  let s := updateHolding conf (fetchPurge conf s)
  if !s.holding && !s.complete then
    handleFetch conf i
      { s with
        calls := s.calls ++ [⟨s.queued = 0, s.mails.length⟩]
        purge := s.purge && !i.purged }
  else preparePoll conf i.sockets s

/-! ## Steps -/

/-- The top of the loop: `privsep_check` and `privsep_recv`. -/
def startPass (s : Loop κ δ υ σ γ ρ) : Bool × Loop κ δ υ σ γ ρ :=
  let s := { s with blocked := 0, asked := false, todo := s.matchq, matchq := [] }
  match s.buffer with
  | [] => (false, { s with pc := .matching none, hand := none })
  | msg :: buffer =>
    (true, { s with pc := .matching (some msg), buffer := buffer, hand := some msg.id })

/-- What the loop does next, and whether `pio` is read meanwhile. -/
def next (i : Input σ ρ) (s : Loop κ δ υ σ γ ρ) : Option (Bool × Loop κ δ υ σ γ ρ) :=
  match s.pc with
  | .top => some (startPass s)
  | .matching msgp => some (fetchMatch env conf i.fails msgp s)
  | .delivering msgp => some (fetchDeliver env msgp s)
  | .fetching => some (false, callFetch conf i s)
  | .polling _ => some (true, if i.fails then { s with pc := .aborted } else { s with pc := .top })
  | _ => none

/-- The replies that are still to be taken. -/
def Loop.unread (s : Loop κ δ υ σ γ ρ) (msgs : List (Msg ρ)) : List ℕ :=
  s.hand.toList ++ (s.buffer ++ msgs).map Msg.id

/-- Messages can come in: each is the reply to a request. -/
def Loop.canArrive (s : Loop κ δ υ σ γ ρ) (msgs : List (Msg ρ)) : Prop :=
  (∀ msg ∈ msgs, msg.type = .done) ∧
    ∀ msg ∈ msgs, s.taken.count msg.id + (s.unread msgs).count msg.id ≤ s.requests.count msg.id

instance (s : Loop κ δ υ σ γ ρ) (msgs : List (Msg ρ)) : Decidable (s.canArrive msgs) := by
  unfold Loop.canArrive
  infer_instance

/-- One step. -/
def step (s : Loop κ δ υ σ γ ρ) (i : Input σ ρ) : Option (Loop κ δ υ σ γ ρ) :=
  (next env conf i s).bind fun (reads, s) =>
    if i.arrivals.isEmpty ∨ reads = true ∧ s.canArrive i.arrivals then
      some { s with buffer := s.buffer ++ i.arrivals }
    else none

end

end Fdm.Account
