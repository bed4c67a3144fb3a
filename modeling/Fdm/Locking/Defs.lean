import Fdm.Lib.Owners
import Fdm.Lib.Runs
import Mathlib.Data.List.Dedup

/-!
# One mbox, one fetcher, many deliverers

The system calls of `openlock`, `createlock` and `closelock`, of the mbox fetcher
(`fetch_mbox_state_open`, `fetch_mbox_save`, `fetch_mbox_abort`) and of
`deliver_mbox_deliver`, on the file at one path; one step of the system is one call of one
process.

A file is the list of what was written to it, a mail at a time or in pieces, and its size
is the length of that list. What the scanner makes of the bytes is not looked at here: the
fetcher finds the mails of which there is a piece in the part it has mapped. Only the locks
are contended, so calls fail for the reasons given here, but for a `write` and for a fetch
that is aborted.
-/

namespace Fdm.Locking

open Lib.Owners

/-- `conf.lock_types`. -/
structure LockTypes where
  fcntl : Bool
  flock : Bool
  dotlock : Bool
deriving DecidableEq, Repr

/-- Who holds a lock; each deliverer delivers one mail. -/
inductive Proc (ι : Type)
  | fetch
  | deliver (d : ι)
deriving DecidableEq, Repr

/-- A mail: one that was there before, or that of a deliverer. -/
inductive MailId (ο ι : Type)
  | old (m : ο)
  | new (d : ι)
deriving DecidableEq, Repr

/-- A mail and the number of the `write` that wrote this piece of it. -/
abbrev Piece (ο ι : Type) := MailId ο ι × ℕ

/-- The files: which one is at the path, the lock file, and what the kernel knows of each. -/
structure Disk (ο ι : Type) where
  path : Option ℕ
  content : ℕ → List (Piece ο ι)
  next : ℕ
  dotlock : Bool := false
  flock : ℕ → Option (Proc ι) := fun _ => none
  fcntl : ℕ → Option (Proc ι) := fun _ => none

variable {ο ι : Type} [DecidableEq ο] [DecidableEq ι]

/-! ## `file.c` -/

/-- `mklock`; `none` is `EAGAIN`. -/
def mklock (locks : LockTypes) (b : Disk ο ι) : Option (Disk ο ι) :=
  if !locks.dotlock then some b
  else if b.dotlock then none
  else some { b with dotlock := true }

/-- `rmlock`. -/
def rmlock (locks : LockTypes) (b : Disk ο ι) : Disk ο ι :=
  if locks.dotlock then { b with dotlock := false } else b

/-- The first call of `lockfd`. -/
def lockFlock (locks : LockTypes) (p : Proc ι) (fd : ℕ) (b : Disk ο ι) : Option (Disk ο ι) :=
  if locks.flock then (acquire p fd b.flock).map fun owner => { b with flock := owner }
  else some b

/-- The second call of `lockfd`. -/
def lockFcntl (locks : LockTypes) (p : Proc ι) (fd : ℕ) (b : Disk ο ι) : Option (Disk ο ι) :=
  if locks.fcntl then (acquire p fd b.fcntl).map fun owner => { b with fcntl := owner }
  else some b

/-- `close`: the locks on the file go with the descriptor. -/
def close (p : Proc ι) (fd : ℕ) (b : Disk ο ι) : Disk ο ι :=
  { b with flock := release p fd b.flock, fcntl := release p fd b.fcntl }

/-- What `openlock` and `createlock` leave in `errno`. -/
inductive Errno
  | again
  | exist
  | noent
deriving DecidableEq, Repr

/-- The next call of `openlock`, or of `createlock`. -/
inductive Opening
  | mklock (create : Bool)
  | open (create : Bool)
  | flock (fd : ℕ)
  | fcntl (fd : ℕ)
  | close (fd : ℕ)
  | rmlock (errno : Errno)
deriving DecidableEq, Repr

/-- How `openlock` goes on after a call. -/
inductive Opened
  | go (o : Opening)
  | got (fd : ℕ)
  | failed (errno : Errno)
deriving DecidableEq, Repr

/-- A call of `openlock` or `createlock`. -/
def openlock (locks : LockTypes) (p : Proc ι) (b : Disk ο ι) : Opening → Opened × Disk ο ι
  | .mklock create =>
    match mklock locks b with
    | none => (.failed .again, b)
    | some b => (.go (.open create), b)
  | .open false =>
    match b.path with
    | none => (.go (.rmlock .noent), b)
    | some fd => (.go (.flock fd), b)
  | .open true =>
    match b.path with
    | none =>
      (.go (.flock b.next),
        { b with
          path := some b.next
          content := Function.update b.content b.next []
          next := b.next + 1 })
    | some _ => (.go (.rmlock .exist), b)
  | .flock fd =>
    match lockFlock locks p fd b with
    | none => (.go (.close fd), b)
    | some b => (.go (.fcntl fd), b)
  | .fcntl fd =>
    match lockFcntl locks p fd b with
    | none => (.go (.close fd), b)
    | some b => (.got fd, b)
  | .close fd => (.go (.rmlock .again), close p fd b)
  | .rmlock errno => (.failed errno, rmlock locks b)

/-! ## The deliverer -/

/-- The next call of `deliver_mbox_deliver`. -/
inductive Deliver
  | stat
  | opening (o : Opening)
  | sleep
  | write (fd : ℕ) (k : ℕ)
  | close (fd : ℕ) (success : Bool)
  | rmlock (success : Bool)
  | finished (success : Bool)
deriving DecidableEq, Repr

/-- The settings: `conf.lock_types`, `conf.no_create`, and in how many pieces the mail of a
deliverer is written. -/
structure Conf (ι : Type) where
  locks : LockTypes
  noCreate : Bool := false
  pieces : ι → ℕ

/-- `deliver_mbox_deliver`, one call. -/
def deliver (conf : Conf ι) (d : ι) (b : Disk ο ι) : Deliver → Option (Deliver × Disk ο ι)
  | .stat =>
    if b.path = none ∧ conf.noCreate then some (.finished false, b)
    else some (.opening (.mklock !conf.noCreate), b)
  | .opening o =>
    match openlock conf.locks (.deliver d) b o with
    | (.go o, b) => some (.opening o, b)
    | (.got fd, b) => some (.write fd 0, b)
    | (.failed .exist, b) => some (.opening (.mklock false), b)
    | (.failed .again, b) => some (.sleep, b)
    | (.failed .noent, b) => some (.finished false, b)
  | .sleep => some (.opening (.mklock !conf.noCreate), b)
  | .write fd k =>
    if k < conf.pieces d then
      some (.write fd (k + 1),
        { b with content := Function.update b.content fd (b.content fd ++ [(.new d, k)]) })
    else some (.close fd true, b)
  | .close fd success => some (.rmlock success, close (.deliver d) fd b)
  | .rmlock success => some (.finished success, rmlock conf.locks b)
  | .finished _ => none

/-- `locksleep` has slept long enough, or a `write` fails. -/
def failDeliver : Deliver → Option Deliver
  | .sleep => some (.finished false)
  | .write fd _ => some (.close fd false)
  | _ => none

/-! ## The fetcher -/

/-- The next call of the fetcher. `size` is what `stat` said; the mails are read and
committed in `mail`. -/
inductive Fetch (μ : Type)
  | stat
  | opening (size : ℕ) (o : Opening)
  | sleep (size : ℕ)
  | mail (fd size : ℕ)
  | truncate (fd : ℕ)
  | temp (fd size : ℕ) (kept : List μ)
  | linkSaved (fd temp : ℕ)
  | unlinkPath (fd temp : ℕ)
  | linkPath (fd temp : ℕ)
  | unlinkTemp (fd : ℕ)
  | unlinkSaved (fd : ℕ)
  | close (fd : ℕ)
  | rmlock
  | finished
deriving DecidableEq, Repr

/-- What is mapped. -/
def mapped (b : Disk ο ι) (fd size : ℕ) : List (Piece ο ι) := (b.content fd).take size

/-- The mails that are fetched. -/
def fetched (b : Disk ο ι) (fd size : ℕ) : List (MailId ο ι) :=
  ((mapped b fd size).map Prod.fst).dedup

/-- What is copied to the new file. -/
def copied (b : Disk ο ι) (fd size : ℕ) (kept : List (MailId ο ι)) : List (Piece ο ι) :=
  kept.flatMap fun m => (mapped b fd size).filter fun x => x.1 = m

/-- The fetcher, one call. -/
def fetch (conf : Conf ι) (b : Disk ο ι) :
    Fetch (MailId ο ι) → Option (Fetch (MailId ο ι) × Disk ο ι)
  | .stat =>
    match b.path with
    | none => some (.finished, b)
    | some i =>
      if b.content i = [] then some (.finished, b)
      else some (.opening (b.content i).length (.mklock false), b)
  | .opening size o =>
    match openlock conf.locks .fetch b o with
    | (.go o, b) => some (.opening size o, b)
    | (.got fd, b) => some (.mail fd size, b)
    | (.failed .again, b) => some (.sleep size, b)
    | (.failed _, b) => some (.finished, b)
  | .sleep size => some (.opening size (.mklock false), b)
  | .mail _ _ => none
  | .truncate fd =>
    some (.close fd, { b with content := Function.update b.content fd [] })
  | .temp fd size kept =>
    -- nobody knows the name of the new file, so writing it can count as one call
    some (.linkSaved fd b.next,
      { b with
        content := Function.update b.content b.next (copied b fd size kept)
        next := b.next + 1 })
  | .linkSaved fd temp => some (.unlinkPath fd temp, b)
  | .unlinkPath fd temp => some (.linkPath fd temp, { b with path := none })
  | .linkPath fd temp =>
    match b.path with
    | none => some (.unlinkTemp fd, { b with path := some temp })
    | some _ => some (.close fd, b)
  | .unlinkTemp fd => some (.unlinkSaved fd, b)
  | .unlinkSaved fd => some (.close fd, b)
  | .close fd => some (.rmlock, close .fetch fd b)
  | .rmlock => some (.finished, rmlock conf.locks b)
  | .finished => none

/-- All mails are committed: `fetch_mbox_save`, up to its first call. -/
def save (b : Disk ο ι) (fd size : ℕ) (kept : List (MailId ο ι)) : Fetch (MailId ο ι) :=
  if kept = [] then
    if fetched b fd size ≠ [] then .truncate fd else .close fd
  else if kept.length = (fetched b fd size).length then .close fd
  else .temp fd size kept

/-- The fetch is given up: waiting for the lock, or when the mails are read. -/
def failFetch : Fetch (MailId ο ι) → Option (Fetch (MailId ο ι))
  | .sleep _ => some .finished
  | .mail fd _ => some (.close fd)
  | _ => none

/-! ## The system -/

/-- The files and where each process is. `dropped` are the mails the fetcher has committed
as dropped. -/
structure Sys (ο ι : Type) where
  disk : Disk ο ι
  fetch : Fetch (MailId ο ι) := .stat
  deliver : ι → Deliver := fun _ => .stat
  dropped : List (MailId ο ι) := []

/-- Whose turn it is. -/
inductive Act (ο ι : Type)
  | fetch
  | save (kept : List (MailId ο ι))
  | failFetch
  | deliver (d : ι)
  | failDeliver (d : ι)
deriving DecidableEq, Repr

/-- One call. -/
def step (conf : Conf ι) (s : Sys ο ι) : Act ο ι → Option (Sys ο ι)
  | .fetch => (fetch conf s.disk s.fetch).map fun r => { s with fetch := r.1, disk := r.2 }
  | .save kept =>
    match s.fetch with
    | .mail fd size =>
      if kept.Nodup ∧ ∀ m ∈ kept, m ∈ fetched s.disk fd size then
        some { s with
          fetch := save s.disk fd size kept
          dropped := s.dropped ++ (fetched s.disk fd size).filter fun m => m ∉ kept }
      else none
    | _ => none
  | .failFetch => (failFetch s.fetch).map fun f => { s with fetch := f }
  | .deliver d =>
    (deliver conf d s.disk (s.deliver d)).map fun r =>
      { s with deliver := Function.update s.deliver d r.1, disk := r.2 }
  | .failDeliver d =>
    (failDeliver (s.deliver d)).map fun f => { s with deliver := Function.update s.deliver d f }

/-- An mbox with mails in it, or none. -/
def begin (old : Option (List (ο × ℕ))) : Sys ο ι where
  disk :=
    { path := old.map fun _ => 0
      content := fun _ => (old.getD []).map fun x => (.old x.1, x.2)
      next := 1 }

end Fdm.Locking
