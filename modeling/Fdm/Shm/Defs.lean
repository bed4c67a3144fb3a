import Mathlib.Data.Nat.Notation
import Mathlib.Logic.Function.Basic

/-!
# The files of mails

A mail is kept in a file in `conf.tmp_dir` that is mapped into memory. It is created by the fetch
child, opened again by the parent that starts a delivery child for it, and a delivery that writes
back has another file, which the parent creates and which replaces the first one in the fetch child.
Each process has a list of the files it would have to remove (`cleanup.c`).

* `Proc` is what a process sees: the directory, its list, and the functions of `mail.c`;
* `Sys` is the parent and its children, and a step one of these functions in one of them. The
  parent does not end. A signal comes between two steps, apart from a `SIGTERM` next to
  `SHM_REGISTER` or `SHM_DEREGISTER`, when the list does not have a file that is there.
-/

namespace Fdm.Shm

/-! ## One process -/

/-- The calls of `fatal` and `fatalx`. -/
inductive Fatal
  /-- `cleanup_deregister`. -/
  | entryNotFound
  /-- `shm_destroy` and `cleanup_purge`. -/
  | unlinkFailed
  /-- `cleanup_check`. -/
  | listNotEmpty
deriving DecidableEq, Repr

/-- `struct mail`, as far as it is about the file: `base` is NULL or the file is mapped. There is no
name in a mail that was never opened. -/
inductive Mail
  | shut (name : Option ℕ)
  | mapped (name : ℕ)
deriving DecidableEq, Repr

/-- `shm.name`. -/
def Mail.name : Mail → Option ℕ
  | shut name => name
  | mapped name => some name

/-- The files that a mail has mapped. -/
def Mail.files : Mail → List ℕ
  | shut _ => []
  | mapped name => [name]

/-- `conf.tmp_dir` and `cleanlist`. -/
structure Proc where
  files : List ℕ
  clean : List ℕ
deriving DecidableEq, Repr

namespace Proc

/-- `cleanup_register`. -/
def register (n : ℕ) (p : Proc) : Proc := { p with clean := n :: p.clean }

/-- `cleanup_deregister`. -/
def deregister (n : ℕ) (p : Proc) : Except Fatal Proc :=
  if n ∈ p.clean then .ok { p with clean := p.clean.erase n } else .error .entryNotFound

/-- `unlink`, when its failure is fatal. -/
def unlink (n : ℕ) (p : Proc) : Except Fatal Proc :=
  if n ∈ p.files then .ok { p with files := p.files.erase n } else .error .unlinkFailed

/-- `mail_open`, when it succeeds; `mkstemp` has found the name. -/
def mailOpen (n : ℕ) (p : Proc) : Proc := { p with files := n :: p.files }.register n

/-- `mail_close`. -/
def mailClose (p : Proc) : Mail → Except Fatal Proc
  | .shut _ => .ok p
  | .mapped n => p.deregister n

/-- `mail_destroy`. -/
def mailDestroy (p : Proc) : Mail → Except Fatal Proc
  | .shut _ => .ok p
  | .mapped n => do (← p.deregister n).unlink n

/-- `shm_reopen`, and `SHM_REGISTER`. A file that is there can be opened and mapped if `opens`. -/
def shmReopen (opens : Bool) (name : Option ℕ) (p : Proc) : Mail × Proc :=
  match name with
  | none => (.shut none, p)
  | some n => if opens = true ∧ n ∈ p.files then (.mapped n, p.register n) else (.shut (some n), p)

/-- `mail_receive`: the mail `m` becomes the one of a message, which has `name`. -/
def mailReceive (destroy opens : Bool) (m : Mail) (name : Option ℕ) (p : Proc) :
    Except Fatal (Mail × Proc) := do
  let p ← if destroy then p.mailDestroy m else p.mailClose m
  return p.shmReopen opens name

/-- `cleanup_check`. -/
def check (p : Proc) : Except Fatal Proc := if p.clean = [] then .ok p else .error .listNotEmpty

/-- `cleanup_purge`. -/
def purge (p : Proc) : Except Fatal Proc := p.clean.foldlM (fun p n => p.unlink n) p

end Proc

/-! ## The processes together -/

/-- A fetch child fetches, is at the end of `fetch_account`, or is no process any more. -/
inductive Life
  | running
  | finished
  | gone
deriving DecidableEq, Repr

/-- A mail of a fetch child. It is `fctx.mail` until it is queued, and waits for the parent while
`msgid` is set. -/
structure MailCtx where
  child : ℕ
  mail : Mail
  queued : Bool := false
  idx : ℕ := 0
  msgid : Bool := false
deriving DecidableEq, Repr

/-- A `MSG_ACTION` on the way to the parent, or a `MSG_COMMAND`, which does not write back. -/
structure Request where
  child : ℕ
  idx : ℕ
  wrback : Bool
  name : Option ℕ
deriving DecidableEq, Repr

/-- `struct child_deliver_data`: a delivery child that has not reported, with the name of the mail
of the request, which the parent has mapped, and of the one that the child writes back to. -/
structure Delivery where
  child : ℕ
  idx : ℕ
  mail : ℕ
  wrMail : Option ℕ
deriving DecidableEq, Repr

/-- A `MSG_DONE` on the way to a fetch child. -/
structure Reply where
  child : ℕ
  idx : ℕ
  error : Bool
  wrback : Bool
  name : Option ℕ
deriving DecidableEq, Repr

/-- The file that a fetch child is to take over. -/
def Reply.files (r : Reply) : List ℕ := if !r.error && r.wrback then r.name.toList else []

inductive Who
  | parent
  | fetch (a : ℕ)
deriving DecidableEq, Repr

/-- The directory and the processes; fetch children are numbered. -/
structure Sys where
  files : List ℕ := []
  parentClean : List ℕ := []
  clean : ℕ → List ℕ := fun _ => []
  life : ℕ → Life := fun _ => .running
  /-- `a->idx`. -/
  idx : ℕ → ℕ := fun _ => 0
  mails : List MailCtx := []
  requests : List Request := []
  deliveries : List Delivery := []
  replies : List Reply := []
  /-- Files that a fetch child has registered but not mapped any more. -/
  lost : List (ℕ × ℕ) := []
  /-- Files that no process has any more. -/
  orphans : List ℕ := []
  /-- What is left in the list of the parent. -/
  stale : List ℕ := []
  /-- The fetch children in which `mail_resize` has failed. -/
  resized : List ℕ := []
  fatals : List (Who × Fatal) := []

namespace Sys

def ofFetch (a : ℕ) (s : Sys) : Proc := ⟨s.files, s.clean a⟩

def setFetch (a : ℕ) (p : Proc) (s : Sys) : Sys :=
  { s with files := p.files, clean := Function.update s.clean a p.clean }

def ofParent (s : Sys) : Proc := ⟨s.files, s.parentClean⟩

def setParent (p : Proc) (s : Sys) : Sys := { s with files := p.files, parentClean := p.clean }

/-- A fetch child ends: nobody will read what is on the way to it. -/
def leave (a : ℕ) (s : Sys) : Sys :=
  { s with
    life := Function.update s.life a .gone
    clean := Function.update s.clean a []
    mails := s.mails.filter fun c => c.child != a
    lost := s.lost.filter fun e => e.1 != a
    replies := s.replies.filter fun r => r.child != a
    orphans := (s.replies.filter fun r => r.child == a).flatMap Reply.files ++ s.orphans }

/-- A fetch child ends and does not clean up. -/
def die (a : ℕ) (s : Sys) : Sys :=
  { s.leave a with
    orphans := (s.mails.filter fun c => c.child == a).flatMap (fun c => c.mail.files) ++
      ((s.lost.filter fun e => e.1 == a).map Prod.snd ++ (s.leave a).orphans) }

/-- A function of a fetch child, which ends when it is fatal. -/
def inFetch (a : ℕ) (x : Except Fatal Proc) (s : Sys) (k : Sys → Sys) : Sys :=
  match x with
  | .ok p => k (s.setFetch a p)
  | .error e => { s.die a with fatals := s.fatals ++ [(.fetch a, e)] }

/-- `child_sighandler`, for a `SIGTERM`. -/
def childSighandler (a : ℕ) (s : Sys) : Sys := s.inFetch a (s.ofFetch a).purge (leave a)

/-- The parent sends a `MSG_DONE`; the fetch child may be missing. -/
def send (r : Reply) (s : Sys) : Sys :=
  if s.life r.child = .gone then { s with orphans := r.files ++ s.orphans }
  else { s with replies := r :: s.replies }

/-- A function of the parent. -/
def inParent (x : Except Fatal Proc) (s : Sys) (k : Sys → Sys) : Sys :=
  match x with
  | .ok p => k (s.setParent p)
  | .error e => { s with fatals := s.fatals ++ [(.parent, e)] }

end Sys

/-- What calls give when the parent gets a request: whether `shm_reopen` succeeds, the name that
`mail_open` creates for a mail to be written back, and whether `shm_owner` succeeds. -/
structure Calls where
  opens : Bool := true
  created : Option ℕ := none
  owns : Bool := true
deriving DecidableEq, Repr

/-- `parent_fetch_error`. -/
def Request.error (q : Request) : Reply := ⟨q.child, q.idx, true, q.wrback, q.name⟩

/-- `parent_fetch`. A request that fails after its mail was received leaves it in the list. That the
parent ends when it cannot send an error is a matter of `Parent`. -/
def Sys.parentFetch (q : Request) (calls : Calls) (s : Sys) : Sys :=
  let s := { s with requests := s.requests.erase q }
  match s.ofParent.shmReopen calls.opens q.name with
  | (.shut _, _) => s.send q.error
  | (.mapped n, p) =>
    let s := s.setParent p
    if q.wrback then
      match calls.created with
      | none => ({ s with stale := n :: s.stale } : Sys).send q.error
      | some new =>
        let s := s.setParent (s.ofParent.mailOpen new)
        if calls.owns then { s with deliveries := ⟨q.child, q.idx, n, some new⟩ :: s.deliveries }
        else
          s.inParent (s.ofParent.mailDestroy (.mapped new)) fun s =>
            ({ s with stale := n :: s.stale } : Sys).send q.error
    else { s with deliveries := ⟨q.child, q.idx, n, none⟩ :: s.deliveries }

/-- The end of `parent_deliver`: the reply is sent, and the mail that it has is closed. -/
def Sys.sendClose (d : Delivery) (error wrback : Bool) (m : Mail) (s : Sys) : Sys :=
  let s := s.send ⟨d.child, d.idx, error, wrback, m.name⟩
  s.inParent (s.ofParent.mailClose m) id

/-- `parent_deliver`, when the delivery child has reported. The mail that was written back takes the
place of the first one, when it can be opened. -/
def Sys.parentDeliver (d : Delivery) (error opens : Bool) (s : Sys) : Sys :=
  let s := { s with deliveries := s.deliveries.erase d }
  match d.wrMail with
  | none => s.sendClose d error false (.mapped d.mail)
  | some new =>
    if error then
      s.inParent (s.ofParent.mailDestroy (.mapped new)) fun s =>
        s.sendClose d true true (.mapped d.mail)
    else
      match (do
          let p ← s.ofParent.mailClose (.mapped new)
          p.mailReceive false opens (.mapped d.mail) (some new)) with
      | .error e => { s with fatals := s.fatals ++ [(.parent, e)] }
      | .ok (m, p) =>
        let s := s.setParent p
        match m with
        | .shut _ => ({ s with orphans := new :: s.orphans } : Sys).sendClose d true true m
        | .mapped _ => s.sendClose d false true m

/-! ## Steps -/

inductive Act
  /-- `mail_open` of `fctx.mail`, with the name that `mkstemp` has found. -/
  | opens (a n : ℕ)
  /-- `mail_resize` fails. -/
  | resizeFails (c : MailCtx)
  /-- `fetch_enqueue`. -/
  | enqueue (c : MailCtx)
  /-- `fetch_dequeue`, or `fetch_enqueue` about a mail that is too big. -/
  | free (c : MailCtx)
  /-- `start_action`, or a command is matched. -/
  | ask (c : MailCtx) (wrback : Bool)
  /-- `finish_action`; `shm_reopen` succeeds or not. -/
  | answer (r : Reply) (c : MailCtx) (opens : Bool)
  /-- `child_fetch` does not look at what comes before the `MSG_EXIT`. -/
  | ignore (r : Reply)
  /-- The end of `fetch_account`. -/
  | finish (a : ℕ)
  /-- `child_exit`. -/
  | exit (a : ℕ)
  /-- `SIGTERM` in a fetch child. -/
  | term (a : ℕ)
  /-- The same, in `mail_open` between `mkstemp` and `SHM_REGISTER`. -/
  | termOpens (a n : ℕ)
  /-- The same, in `mail_destroy` between `SHM_DEREGISTER` and `unlink`. -/
  | termDestroys (c : MailCtx)
  /-- A fetch child is killed, or ends with `fatal`. -/
  | die (a : ℕ)
  /-- `parent_fetch`. -/
  | fetch (q : Request) (calls : Calls)
  /-- `parent_deliver`. -/
  | deliver (d : Delivery) (error opens : Bool)
  /-- A delivery child ends without a report. -/
  | crash (d : Delivery)

/-- A mail that its fetch child has in its hands. -/
def Sys.has (s : Sys) (c : MailCtx) : Prop :=
  c ∈ s.mails ∧ s.life c.child = .running ∧ c.msgid = false

instance (s : Sys) (c : MailCtx) : Decidable (s.has c) := by
  unfold Sys.has
  infer_instance

/-- A fetch child can open a mail whose file is called `n`: the one before is queued or freed. -/
def Sys.canOpen (s : Sys) (a n : ℕ) : Prop :=
  s.life a = .running ∧ n ∉ s.files ∧ ∀ c ∈ s.mails, c.child = a → c.queued = true

instance (s : Sys) (a n : ℕ) : Decidable (s.canOpen a n) := by
  unfold Sys.canOpen
  infer_instance

/-- One step. -/
def step (s : Sys) : Act → Option Sys
  | .opens a n =>
    if s.canOpen a n then
      some { s.setFetch a ((s.ofFetch a).mailOpen n) with
        mails := { child := a, mail := .mapped n } :: s.mails }
    else none
  | .resizeFails c =>
    match c.mail with
    | .shut _ => none
    | .mapped n =>
      if s.has c then
        some { s with
          mails := { c with mail := .shut (some n) } :: s.mails.erase c
          lost := (c.child, n) :: s.lost
          resized := c.child :: s.resized }
      else none
  | .enqueue c =>
    if s.has c ∧ c.queued = false then
      some { s with
        mails := { c with queued := true, idx := s.idx c.child + 1 } :: s.mails.erase c
        idx := Function.update s.idx c.child (s.idx c.child + 1) }
    else none
  | .free c =>
    if s.has c then
      some (s.inFetch c.child ((s.ofFetch c.child).mailDestroy c.mail) fun s =>
        { s with mails := s.mails.erase c })
    else none
  | .ask c wrback =>
    if s.has c ∧ c.queued = true then
      some { s with
        mails := { c with msgid := true } :: s.mails.erase c
        requests := s.requests ++ [⟨c.child, c.idx, wrback, c.mail.name⟩] }
    else none
  | .answer r c opens =>
    if r ∈ s.replies ∧ c ∈ s.mails ∧ s.life c.child = .running ∧ c.msgid = true ∧
        r.child = c.child ∧ r.idx = c.idx then
      let s := { s with replies := s.replies.erase r }
      if r.error = false ∧ r.wrback = true then
        match (s.ofFetch c.child).mailReceive true opens c.mail r.name with
        | .error e => some { s.die c.child with fatals := s.fatals ++ [(.fetch c.child, e)] }
        | .ok (m, p) =>
          some { s.setFetch c.child p with
            mails := { c with mail := m, msgid := false } :: s.mails.erase c
            orphans := (if m.files = [] then r.files else []) ++ s.orphans }
      else some { s with mails := { c with msgid := false } :: s.mails.erase c }
    else none
  | .ignore r =>
    if r ∈ s.replies ∧ s.life r.child = .finished then
      some { s with replies := s.replies.erase r, orphans := r.files ++ s.orphans }
    else none
  | .finish a =>
    if s.life a = .running then
      let mails := s.mails.filter fun c => c.child == a
      some (s.inFetch a (mails.foldlM (fun p c => p.mailDestroy c.mail) (s.ofFetch a)) fun s =>
        { s with
          life := Function.update s.life a .finished
          mails := s.mails.filter fun c => c.child != a })
    else none
  | .exit a =>
    if s.life a = .finished then some (s.inFetch a (s.ofFetch a).check (Sys.leave a)) else none
  | .term a => if s.life a ≠ .gone then some (s.childSighandler a) else none
  | .termOpens a n =>
    if s.canOpen a n then
      let s := { s with files := n :: s.files, orphans := n :: s.orphans }
      some (s.childSighandler a)
    else none
  | .termDestroys c =>
    match c.mail with
    | .shut _ => none
    | .mapped n =>
      if c ∈ s.mails ∧ s.life c.child = .running then
        some (s.inFetch c.child ((s.ofFetch c.child).deregister n) fun s =>
          let s := { s with mails := s.mails.erase c, orphans := n :: s.orphans }
          s.childSighandler c.child)
      else none
  | .die a => if s.life a ≠ .gone then some (s.die a) else none
  | .fetch q calls =>
    if q ∈ s.requests ∧ ∀ n ∈ calls.created, n ∉ s.files then some (s.parentFetch q calls) else none
  | .deliver d error opens =>
    if d ∈ s.deliveries then some (s.parentDeliver d error opens) else none
  | .crash d =>
    if d ∈ s.deliveries then
      some { s with
        deliveries := s.deliveries.erase d
        orphans := d.wrMail.toList ++ s.orphans
        stale := d.mail :: d.wrMail.toList ++ s.stale }
    else none

end Fdm.Shm
