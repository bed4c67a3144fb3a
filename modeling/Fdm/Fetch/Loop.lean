import Fdm.Mail
import Fdm.Lib.Runs
import Mathlib.Data.List.Perm.Basic

/-!
# The fetch loop

`fetch_account` drives one account: it calls the fetcher's state function, queues the
mails it hands out, and commits each mail when its rules and deliveries are finished.
The fetchers (`struct fetch`) plug into it.

What happens to a queued mail between `fetch_enqueue` and `fetch_dequeue` is left to the
schedule: any queued mail may be dequeued next, with any decision. What arrives from
outside (lines of the server, failures of system calls) is an `input` of the fetcher's
own choosing.
-/

namespace Fdm.Fetch

/-- What a fetch function returns; `crash` stands for a run of C code that has no defined
outcome. -/
inductive FetchCode
  | again
  | block
  | error
  | mail
  | exit
  | crash
deriving DecidableEq, Repr

/-- `enum fetch_only`. -/
inductive FetchOnly
  | all
  | new
  | old
deriving DecidableEq, Repr

/-- `fctx->flags`. -/
structure FetchFlags where
  purge : Bool := false
  empty : Bool := false
  poll : Bool := false
deriving DecidableEq, Repr

/-- `struct fetch_ctx`; `ς` names the state functions of the fetcher. -/
structure FetchCtx (ς α : Type) where
  state : ς
  flags : FetchFlags := {}
  mail : Mail α := {}
deriving DecidableEq, Repr

/-- `struct fetch`: `δ` is the fetcher's data and the part of the world it works on, and
`ι` what may happen there from outside. -/
structure Fetcher (δ ς α ι : Type) where
  first : ς
  state : FetchCtx ς α → δ → FetchCode × FetchCtx ς α × δ
  commit : Mail α → δ → FetchCode × Mail α × δ
  abort : δ → δ
  auxfree : Mail α → δ → δ
  input : ι → δ → δ

/-- The settings the loop reads. -/
structure Conf where
  queueHigh : ℕ := 2
  queueLow : ℕ := 1
  purgeAfter : ℕ := 0
  maxSize : ℕ := 32 * 1024 * 1024
  delBig : Bool := false
  /-- `conf.keep_all || a->keep` -/
  keepAll : Bool := false
deriving DecidableEq, Repr

/-- The variables of `fetch_account` and of the functions it calls. `queue` holds the mails
of `fetch_matchq` and `fetch_deliverq`. -/
structure Loop (δ ς α : Type) where
  fctx : FetchCtx ς α
  data : δ
  queue : List (Mail α) := []
  dropped : ℕ := 0
  kept : ℕ := 0
  lastTotal : ℕ := 0
  lastDropped : ℕ := 0
  holding : Bool := false
  complete : Bool := false
  aborted : Bool := false
deriving DecidableEq, Repr

/-- One thing the loop, or the world around it, does next. -/
inductive Act (ι : Type)
  | input (i : ι)
  | pass
  | dequeue (n : ℕ) (d : Decision)
  | fail
deriving DecidableEq, Repr

variable {δ ς α ι : Type}

namespace Loop

/-- The fetch is still going on. -/
def Running (l : Loop δ ς α) : Prop := l.complete = false ∧ l.aborted = false

instance (l : Loop δ ς α) : Decidable l.Running :=
  inferInstanceAs (Decidable (l.complete = false ∧ l.aborted = false))

/-- `fetch_account` has returned. -/
def ended (l : Loop δ ς α) : Bool := l.aborted || (l.complete && l.queue.isEmpty)

/-- `goto abort`: abort the fetcher, then free what is queued. -/
def abort (F : Fetcher δ ς α ι) (l : Loop δ ς α) : Loop δ ς α :=
  { l with data := l.queue.foldl (fun d m => F.auxfree m d) (F.abort l.data), aborted := true }

/-- `fetch_purge`, and the flag it makes the loop set. -/
def purge (conf : Conf) (l : Loop δ ς α) : Loop δ ς α :=
  if conf.purgeAfter = 0 ∨ l.dropped + l.kept = l.lastTotal
      ∨ (l.dropped + l.kept) % conf.purgeAfter ≠ 0 then l
  else if l.lastDropped = l.dropped then { l with lastTotal := l.dropped + l.kept }
  else
    { l with
      lastTotal := l.dropped + l.kept
      lastDropped := l.dropped
      fctx := { l.fctx with flags := { l.fctx.flags with purge := true } } }

/-- Update the holding flag. -/
def hold (conf : Conf) (l : Loop δ ς α) : Loop δ ς α :=
  if conf.queueHigh ≤ l.queue.length then { l with holding := true }
  else if l.queue.length ≤ conf.queueLow then { l with holding := false }
  else l

/-- Set `FETCH_EMPTY` when no mail is queued, clear it otherwise. -/
def markEmpty (l : Loop δ ς α) : Loop δ ς α :=
  { l with fctx := { l.fctx with flags := { l.fctx.flags with empty := l.queue.isEmpty } } }

/-- `fetch_enqueue`. -/
def enqueue (F : Fetcher δ ς α ι) (conf : Conf) (m : Mail α) (l : Loop δ ς α) :
    Loop δ ς α :=
  if conf.maxSize < m.size then
    if !conf.delBig then l.abort F
    else
      match F.commit { m with decision := .drop } l.data with
      | (.error, _, d) => { l with data := d }.abort F
      | (.crash, _, d) => { l with data := d, aborted := true }
      | (_, m, d) => { l with data := F.auxfree m d }
  else
    if m.withBody.trimFrom.size = 0 then l.abort F
    else { l with queue := l.queue ++ [{ m.withBody.trimFrom with decision := .drop }] }

/-- Count a mail that is dropped or kept. -/
def count (l : Loop δ ς α) : Decision → Loop δ ς α
  | .drop => { l with dropped := l.dropped + 1 }
  | .keep => { l with kept := l.kept + 1 }

/-- `fetch_dequeue` for the `n`-th queued mail, with the decision its rules left in it. -/
def dequeue (F : Fetcher δ ς α ι) (conf : Conf) (n : ℕ) (m : Mail α) (d : Decision)
    (l : Loop δ ς α) : Loop δ ς α :=
  let dec := if conf.keepAll then .keep else d
  match F.commit { m with decision := dec } l.data with
  | (.error, _, d) => ({ l with data := d }.count dec).abort F
  | (.crash, _, d) => { l with data := d, aborted := true }
  | (_, m, d) => { l with data := F.auxfree m d, queue := l.queue.eraseIdx n }.count dec

/-- The call of the fetch function and what the loop makes of its result. -/
def call (F : Fetcher δ ς α ι) (conf : Conf) (l : Loop δ ς α) : Loop δ ς α :=
  match F.state l.fctx l.data with
  | (.error, fctx, d) => { l with fctx := fctx, data := d }.abort F
  | (.crash, fctx, d) => { l with fctx := fctx, data := d, aborted := true }
  | (.exit, fctx, d) => { l with fctx := fctx, data := d, complete := true }
  | (.again, fctx, d) => { l with fctx := fctx, data := d }
  | (.block, fctx, d) => { l with fctx := fctx, data := d }
  | (.mail, fctx, d) =>
    { l with fctx := { fctx with mail := {} }, data := d }.enqueue F conf fctx.mail

/-- Whether this pass of the loop calls the fetch function. -/
def calls (conf : Conf) (l : Loop δ ς α) : Bool :=
  !((l.purge conf).hold conf).holding && !l.complete

/-- The part of a loop pass behind `fetch_match` and `fetch_deliver`. -/
def pass (F : Fetcher δ ς α ι) (conf : Conf) (l : Loop δ ς α) : Loop δ ς α :=
  if l.calls conf then ((l.purge conf).hold conf).markEmpty.call F conf
  else (l.purge conf).hold conf

end Loop

/-- One step of the loop or of the world around it. -/
def step (F : Fetcher δ ς α ι) (conf : Conf) (l : Loop δ ς α) : Act ι → Option (Loop δ ς α)
  | .input i => if l.ended then none else some { l with data := F.input i l.data }
  | .pass => if l.ended then none else some (l.pass F conf)
  | .dequeue n d =>
    if l.ended then none else (l.queue[n]?).map fun m => l.dequeue F conf n m d
  | .fail => if l.ended then none else some (l.abort F)

/-- The state `fetch_account` starts in. -/
def start (F : Fetcher δ ς α ι) (flags : FetchFlags) (d : δ) : Loop δ ς α :=
  { fctx := { state := F.first, flags := flags }, data := d }

/-! ## What every fetcher's invariants go through

An invariant of a fetch has three parts: `run` while the fetch goes on, `done` from
`FETCH_EXIT` until the queue is empty, and `dead`, which is all that is left of it after
an abort. The state function and the commit function are asked to keep it; the loop
itself is dealt with here, once. -/

/-- What the results of a commit function owe the invariant. -/
def Committed (F : Fetcher δ ς α ι) (good dead : δ → Prop) :
    FetchCode × Mail α × δ → Prop
  | (.error, _, d) => dead d
  | (.crash, _, d) => dead d
  | (_, m, d) => good (F.auxfree m d)

/-- A commit that keeps what is relied on, whatever it returns. -/
theorem Committed.intro {F : Fetcher δ ς α ι} {good dead : δ → Prop}
    {r : FetchCode × Mail α × δ} (hgood : good (F.auxfree r.2.1 r.2.2)) (hdead : dead r.2.2) :
    Committed F good dead r := by
  obtain ⟨code, m, d⟩ := r
  cases code with
  | error => exact hdead
  | crash => exact hdead
  | _ => exact hgood

/-- A commit may promise less. -/
theorem Committed.mono {F : Fetcher δ ς α ι} {good good' dead dead' : δ → Prop}
    {r : FetchCode × Mail α × δ} (hgood : ∀ d, good d → good' d)
    (hdead : ∀ d, dead d → dead' d) (h : Committed F good dead r) :
    Committed F good' dead' r := by
  obtain ⟨code, m, d⟩ := r
  cases code with
  | error => exact hdead _ h
  | crash => exact hdead _ h
  | _ => exact hgood _ h

/-- Two things that a commit keeps. -/
theorem Committed.and {F : Fetcher δ ς α ι} {good good' dead dead' : δ → Prop}
    {r : FetchCode × Mail α × δ} (h : Committed F good dead r)
    (h' : Committed F good' dead' r) : Committed F (fun d => good d ∧ good' d) dead' r := by
  obtain ⟨code, m, d⟩ := r
  cases code with
  | error => exact h'
  | crash => exact h'
  | _ => exact ⟨h, h'⟩

/-- What the results of a fetch function owe the invariant. -/
def Outcome (conf : Conf) (F : Fetcher δ ς α ι)
    (run : List (Mail α) → FetchCtx ς α → δ → Prop) (done : List (Mail α) → δ → Prop)
    (dead : δ → Prop) (q : List (Mail α)) : FetchCode × FetchCtx ς α × δ → Prop
  | (.again, c, d) => run q c d
  | (.block, c, d) => run q c d
  | (.exit, _, d) => done q d
  | (.error, _, d) => dead d
  | (.crash, _, d) => dead d
  | (.mail, c, d) =>
    dead d ∧
    (c.mail.size ≤ conf.maxSize → c.mail.withBody.trimFrom.size ≠ 0 →
      ∀ m : Mail α, m.auxdata = c.mail.auxdata → run (q ++ [m]) { c with mail := {} } d) ∧
    (conf.maxSize < c.mail.size → conf.delBig = true →
      Committed F (run q { c with mail := {} }) dead
        (F.commit { c.mail with decision := .drop } d))

/-- A weaker invariant is kept when a stronger one is, as far as the commits of oversize
mails go too. -/
theorem Outcome.mono {conf : Conf} {F : Fetcher δ ς α ι}
    {run run' : List (Mail α) → FetchCtx ς α → δ → Prop} {done done' : List (Mail α) → δ → Prop}
    {dead dead' : δ → Prop} {q : List (Mail α)} {r : FetchCode × FetchCtx ς α × δ}
    (hrun : ∀ q c d, run q c d → run' q c d) (hdone : ∀ q d, done q d → done' q d)
    (hdead : ∀ d, dead d → dead' d) (h : Outcome conf F run done dead q r) :
    Outcome conf F run' done' dead' q r := by
  obtain ⟨code, c, d⟩ := r
  cases code with
  | again => exact hrun _ _ _ h
  | block => exact hrun _ _ _ h
  | exit => exact hdone _ _ h
  | mail =>
    obtain ⟨hd, hqueue, hbig⟩ := h
    exact ⟨hdead _ hd, fun hfits hfull m hm => hrun _ _ _ (hqueue hfits hfull m hm),
      fun hsize hdel => (hbig hsize hdel).mono (hrun _ _) hdead⟩
  | _ => exact hdead _ h

/-- Two invariants that are kept are kept together. -/
theorem Outcome.and {conf : Conf} {F : Fetcher δ ς α ι}
    {run run' : List (Mail α) → FetchCtx ς α → δ → Prop} {done done' : List (Mail α) → δ → Prop}
    {dead dead' : δ → Prop} {q : List (Mail α)} {r : FetchCode × FetchCtx ς α × δ}
    (h : Outcome conf F run done dead q r) (h' : Outcome conf F run' done' dead' q r) :
    Outcome conf F (fun q c d => run q c d ∧ run' q c d) done' dead' q r := by
  obtain ⟨code, c, d⟩ := r
  cases code with
  | again => exact ⟨h, h'⟩
  | block => exact ⟨h, h'⟩
  | mail =>
    obtain ⟨-, hqueue, hbig⟩ := h
    obtain ⟨hdead', hqueue', hbig'⟩ := h'
    exact ⟨hdead', fun hfits hfull m hm => ⟨hqueue hfits hfull m hm, hqueue' hfits hfull m hm⟩,
      fun hsize hdel => (hbig hsize hdel).and (hbig' hsize hdel)⟩
  | _ => exact h'

/-- Something about the data alone that the call has kept, kept along with an invariant. -/
theorem Outcome.keep {conf : Conf} {F : Fetcher δ ς α ι}
    {run : List (Mail α) → FetchCtx ς α → δ → Prop} {done : List (Mail α) → δ → Prop}
    {dead Y : δ → Prop} {q : List (Mail α)} {r : FetchCode × FetchCtx ς α × δ}
    (h : Outcome conf F run done dead q r) (hY : Y r.2.2)
    (hbig : r.1 = .mail → conf.maxSize < r.2.1.mail.size → conf.delBig = true →
      Committed F Y Y (F.commit { r.2.1.mail with decision := .drop } r.2.2)) :
    Outcome conf F (fun q c d => run q c d ∧ Y d) (fun q d => done q d ∧ Y d) Y q r := by
  obtain ⟨code, c, d⟩ := r
  cases code with
  | mail =>
    obtain ⟨-, hqueue, hbig'⟩ := h
    exact ⟨hY, fun hfits hfull m hm => ⟨hqueue hfits hfull m hm, hY⟩,
      fun hsize hdel => (hbig' hsize hdel).and (hbig rfl hsize hdel)⟩
  | again => exact ⟨h, hY⟩
  | block => exact ⟨h, hY⟩
  | exit => exact ⟨h, hY⟩
  | _ => exact hY

/-- A mail that is too big is committed at once, as if it were the last one queued. -/
theorem Outcome.mail {conf : Conf} {F : Fetcher δ ς α ι}
    {run : List (Mail α) → FetchCtx ς α → δ → Prop} {done : List (Mail α) → δ → Prop}
    {dead : δ → Prop} {q : List (Mail α)} {c : FetchCtx ς α} {d : δ} (hdead : dead d)
    (hqueue : ∀ m : Mail α, m.auxdata = c.mail.auxdata → run (q ++ [m]) { c with mail := {} } d)
    (hcommit : ∀ q' n x, run q' { c with mail := {} } d → q'[n]? = some x →
      Committed F (run (q'.eraseIdx n) { c with mail := {} }) dead
        (F.commit { x with decision := .drop } d)) :
    Outcome conf F run done dead q (.mail, c, d) := by
  refine ⟨hdead, fun _ _ => hqueue, fun _ _ => ?_⟩
  have hlast := hcommit (q ++ [c.mail]) q.length c.mail (hqueue _ rfl) (by simp)
  rwa [List.eraseIdx_append_of_length_le (Nat.le_refl _), Nat.sub_self,
    List.eraseIdx_cons_zero, List.append_nil] at hlast

/-- Taking a mail out of the queue leaves what the others stand for. -/
theorem filterMap_eraseIdx_perm {β : Type} {q : List (Mail α)} {n : ℕ} {x : Mail α} {b : β}
    {f : Mail α → Option β} (hx : q[n]? = some x) (hf : f x = some b) :
    (q.filterMap f).Perm (b :: (q.eraseIdx n).filterMap f) := by
  obtain ⟨hn, rfl⟩ := List.getElem?_eq_some_iff.mp hx
  have hperm := (List.getElem_cons_eraseIdx_perm hn).symm.filterMap f
  rwa [List.filterMap_cons_some hf] at hperm

/-- An invariant of the fetch loop of `F`, for runs whose calls and commits meet the
guards. -/
structure LoopInv (F : Fetcher δ ς α ι) (conf : Conf)
    (callGuard : List (Mail α) → ς → Mail α → δ → Prop)
    (commitGuard : List (Mail α) → Option ς → δ → Mail α → Prop) where
  run : List (Mail α) → FetchCtx ς α → δ → Prop
  done : List (Mail α) → δ → Prop
  dead : δ → Prop
  run_dead : ∀ {q c d}, run q c d → dead d
  done_dead : ∀ {q d}, done q d → dead d
  dead_abort : ∀ {d}, dead d → dead (F.abort d)
  dead_auxfree : ∀ {m d}, dead d → dead (F.auxfree m d)
  run_flags : ∀ {q c d} (f : FetchFlags), f.poll = c.flags.poll → run q c d →
    run q { c with flags := f } d
  run_input : ∀ {q c d} i, run q c d → run q c (F.input i d)
  done_input : ∀ {q d} i, done q d → done q (F.input i d)
  state : ∀ {q c d}, run q c d → callGuard q c.state c.mail d → c.flags.empty = q.isEmpty →
    Outcome conf F run done dead q (F.state c d)
  commit : ∀ {q c d n x} (dec : Decision), run q c d → q[n]? = some x →
    commitGuard q (some c.state) d x →
    Committed F (run (q.eraseIdx n) c) dead (F.commit { x with decision := dec } d)
  commit_done : ∀ {q d n x} (dec : Decision), done q d → q[n]? = some x →
    commitGuard q none d x →
    Committed F (done (q.eraseIdx n)) dead (F.commit { x with decision := dec } d)

/-- The guards of an invariant as a guard on the steps of the loop. -/
def stepGuard (conf : Conf) (callGuard : List (Mail α) → ς → Mail α → δ → Prop)
    (commitGuard : List (Mail α) → Option ς → δ → Mail α → Prop) (l : Loop δ ς α) :
    Act ι → Prop
  | .pass => l.calls conf = true → callGuard l.queue l.fctx.state l.fctx.mail l.data
  | .dequeue n _ => ∀ x, l.queue[n]? = some x →
      commitGuard l.queue (if l.complete then none else some l.fctx.state) l.data x
  | _ => True

/-- No condition on the calls of the fetch function. -/
def noCallGuard (_ : List (Mail α)) (_ : ς) (_ : Mail α) (_ : δ) : Prop := True

/-- No condition on the commits. -/
def noCommitGuard (_ : List (Mail α)) (_ : Option ς) (_ : δ) (_ : Mail α) : Prop := True

/-- Two loops that differ at most in counters and flags. -/
structure Agree (l l' : Loop δ ς α) : Prop where
  state : l'.fctx.state = l.fctx.state
  mail : l'.fctx.mail = l.fctx.mail
  poll : l'.fctx.flags.poll = l.fctx.flags.poll
  data : l'.data = l.data
  queue : l'.queue = l.queue
  complete : l'.complete = l.complete
  aborted : l'.aborted = l.aborted

theorem Agree.trans {l l' l'' : Loop δ ς α} (h : Agree l l') (h' : Agree l' l'') :
    Agree l l'' where
  state := h'.state.trans h.state
  mail := h'.mail.trans h.mail
  poll := h'.poll.trans h.poll
  data := h'.data.trans h.data
  queue := h'.queue.trans h.queue
  complete := h'.complete.trans h.complete
  aborted := h'.aborted.trans h.aborted

/-- `fetch_purge` is about flags only. -/
theorem agree_purge (conf : Conf) (l : Loop δ ς α) : Agree l (l.purge conf) := by
  unfold Loop.purge
  split_ifs <;> exact ⟨rfl, rfl, rfl, rfl, rfl, rfl, rfl⟩

/-- So is holding back. -/
theorem agree_hold (conf : Conf) (l : Loop δ ς α) : Agree l (l.hold conf) := by
  unfold Loop.hold
  split_ifs <;> exact ⟨rfl, rfl, rfl, rfl, rfl, rfl, rfl⟩

/-- Holding does not show in the fetch context. -/
theorem fctx_hold (conf : Conf) (l : Loop δ ς α) : (l.hold conf).fctx = l.fctx := by
  unfold Loop.hold
  split_ifs <;> rfl

/-- So is counting. -/
theorem agree_count (dec : Decision) (l : Loop δ ς α) : Agree l (l.count dec) := by
  cases dec <;> exact ⟨rfl, rfl, rfl, rfl, rfl, rfl, rfl⟩

/-- Before the fetch function is called only counters and flags have changed. -/
theorem agree_prepare (conf : Conf) (l : Loop δ ς α) :
    Agree l ((l.purge conf).hold conf) :=
  (agree_purge conf l).trans (agree_hold conf _)

namespace LoopInv

variable {F : Fetcher δ ς α ι} {conf : Conf}
  {callGuard : List (Mail α) → ς → Mail α → δ → Prop}
  {commitGuard : List (Mail α) → Option ς → δ → Mail α → Prop}
  (I : LoopInv F conf callGuard commitGuard)
include I

/-- What the invariant says of a state of the loop. -/
def Holds (l : Loop δ ς α) : Prop :=
  if l.aborted then I.dead l.data
  else if l.complete then I.done l.queue l.data
  else I.run l.queue l.fctx l.data

variable {I}

/-- What holds while the loop runs. -/
theorem Holds.run {l : Loop δ ς α} (h : I.Holds l) (hl : l.Running) :
    I.run l.queue l.fctx l.data := by
  simpa [Holds, hl.1, hl.2] using h

/-- What holds in any case. -/
theorem Holds.dead {l : Loop δ ς α} (h : I.Holds l) : I.dead l.data := by
  unfold Holds at h
  split_ifs at h
  · exact h
  · exact I.done_dead h
  · exact I.run_dead h

/-- The invariant depends on nothing that such functions change. -/
theorem Holds.agree {l l' : Loop δ ς α} (h : I.Holds l) (hl : Agree l l') : I.Holds l' := by
  have hfctx : l'.fctx = ⟨l.fctx.state, l'.fctx.flags, l.fctx.mail⟩ := by
    rw [← hl.state, ← hl.mail]
  unfold Holds at h ⊢
  rw [hl.aborted, hl.complete, hl.queue, hl.data]
  split_ifs at h ⊢
  · exact h
  · exact h
  · rw [hfctx]
    exact I.run_flags _ hl.poll h

theorem holds_of_run {l : Loop δ ς α} (hl : l.Running)
    (h : I.run l.queue l.fctx l.data) : I.Holds l := by
  simpa [Holds, hl.1, hl.2] using h

/-- Freeing the mails that are queued. -/
theorem dead_foldl_auxfree {d : δ} (q : List (Mail α)) (h : I.dead d) :
    I.dead (q.foldl (fun d m => F.auxfree m d) d) := by
  induction q generalizing d with
  | nil => exact h
  | cons m q ih => exact ih (I.dead_auxfree h)

/-- The fetch is aborted. -/
theorem holds_abort {l : Loop δ ς α} (h : I.dead l.data) : I.Holds (l.abort F) := by
  show I.dead (l.queue.foldl (fun d m => F.auxfree m d) (F.abort l.data))
  exact dead_foldl_auxfree l.queue (I.dead_abort h)

/-- A mail that was handed out is queued, freed, or ends the fetch. -/
theorem holds_enqueue {l : Loop δ ς α} {c : FetchCtx ς α} {d : δ} (hrun : l.Running)
    (h : Outcome conf F I.run I.done I.dead l.queue (.mail, c, d)) :
    I.Holds ({ l with fctx := { c with mail := {} }, data := d }.enqueue F conf c.mail) := by
  obtain ⟨hdead, hqueue, hbig⟩ := h
  unfold Loop.enqueue
  split_ifs with hsize hdel hempty
  · exact holds_abort hdead
  · -- an oversize mail is dropped on the spot
    have hb := hbig hsize (by simpa using hdel)
    dsimp only
    rcases hr : F.commit { c.mail with decision := .drop } d with ⟨code, m', d'⟩
    rw [hr] at hb
    cases code with
    | error => exact holds_abort hb
    | crash => exact hb
    | _ => exact holds_of_run hrun hb
  · exact holds_abort hdead
  · exact holds_of_run hrun (hqueue (Nat.le_of_not_lt hsize) hempty
      { c.mail.withBody.trimFrom with decision := .drop } (by simp))

/-- A call of the state function. -/
theorem holds_call {l : Loop δ ς α} (hrun : l.Running) (h : I.Holds l)
    (hg : callGuard l.queue l.fctx.state l.fctx.mail l.data)
    (hempty : l.fctx.flags.empty = l.queue.isEmpty) : I.Holds (l.call F conf) := by
  have hs := I.state (h.run hrun) hg hempty
  unfold Loop.call
  rcases hr : F.state l.fctx l.data with ⟨code, c, d⟩
  rw [hr] at hs
  cases code with
  | error => exact holds_abort hs
  | crash => exact hs
  | exit =>
    have hdone : I.done l.queue d := hs
    simpa [Holds, hrun.2] using hdone
  | again => exact holds_of_run hrun hs
  | block => exact holds_of_run hrun hs
  | mail => exact holds_enqueue hrun hs

/-- A pass of the loop. -/
theorem holds_pass {l : Loop δ ς α} (haborted : l.aborted = false) (h : I.Holds l)
    (hg : l.calls conf = true → callGuard l.queue l.fctx.state l.fctx.mail l.data) :
    I.Holds (l.pass F conf) := by
  have ha := agree_prepare conf l
  unfold Loop.pass
  split_ifs with hc
  · have hcomplete : l.complete = false := by
      rw [Loop.calls, Bool.and_eq_true, Bool.not_eq_true'] at hc
      simpa using hc.2
    have ha' : Agree l ((l.purge conf).hold conf).markEmpty :=
      ha.trans ⟨rfl, rfl, rfl, rfl, rfl, rfl, rfl⟩
    refine holds_call ⟨ha'.complete.trans hcomplete, ha'.aborted.trans haborted⟩
      (h.agree ha') ?_ rfl
    rw [ha'.queue, ha'.state, ha'.mail, ha'.data]
    exact hg hc
  · exact h.agree ha

/-- A mail leaves the queue and is committed. -/
theorem holds_dequeue {l : Loop δ ς α} {n : ℕ} {x : Mail α} (dec : Decision)
    (haborted : l.aborted = false) (h : I.Holds l) (hx : l.queue[n]? = some x)
    (hg : commitGuard l.queue (if l.complete then none else some l.fctx.state) l.data x) :
    I.Holds (l.dequeue F conf n x dec) := by
  unfold Loop.dequeue
  generalize (if conf.keepAll then Decision.keep else dec) = dec
  have hc : Committed F (fun d => I.Holds { l with data := d, queue := l.queue.eraseIdx n })
      I.dead (F.commit { x with decision := dec } l.data) := by
    unfold Holds at h ⊢
    simp only [haborted] at h ⊢
    cases hcomplete : l.complete with
    | false =>
      simp only [hcomplete] at h hg ⊢
      exact I.commit dec h hx hg
    | true =>
      simp only [hcomplete] at h hg ⊢
      exact I.commit_done dec h hx hg
  dsimp only
  rcases hr : F.commit { x with decision := dec } l.data with ⟨code, m, d⟩
  rw [hr] at hc
  cases code with
  | error =>
    refine holds_abort ?_
    rw [(agree_count dec _).data]
    exact hc
  | crash => exact hc
  | _ => exact Holds.agree hc (agree_count dec _)

/-- One step keeps the invariant. -/
theorem holds_step {l l' : Loop δ ς α} {a : Act ι} (h : I.Holds l)
    (hg : stepGuard conf callGuard commitGuard l a) (hs : step F conf l a = some l') :
    I.Holds l' := by
  have hover : l.ended = false := by
    by_contra hne
    rw [Bool.not_eq_false] at hne
    cases a <;> simp [step, hne] at hs
  have haborted : l.aborted = false := by
    rw [Loop.ended, Bool.or_eq_false_iff] at hover
    exact hover.1
  cases a with
  | input i =>
    obtain rfl : { l with data := F.input i l.data } = l' := by simpa [step, hover] using hs
    unfold Holds at h ⊢
    simp only [haborted] at h ⊢
    cases hcomplete : l.complete with
    | false =>
      simp only [hcomplete] at h ⊢
      exact I.run_input i h
    | true =>
      simp only [hcomplete] at h ⊢
      exact I.done_input i h
  | pass =>
    obtain rfl : l.pass F conf = l' := by simpa [step, hover] using hs
    exact holds_pass haborted h hg
  | dequeue n dec =>
    obtain ⟨x, hx, rfl⟩ : ∃ x, l.queue[n]? = some x ∧ l.dequeue F conf n x dec = l' := by
      simpa [step, hover] using hs
    exact holds_dequeue dec haborted h hx (hg x hx)
  | fail =>
    obtain rfl : l.abort F = l' := by simpa [step, hover] using hs
    exact holds_abort h.dead

/-- An invariant that holds at the start holds in every state of a guarded run. -/
theorem holds_reach {flags : FetchFlags} {d : δ} {l : Loop δ ς α}
    (hinit : I.run [] { state := F.first, flags := flags } d)
    (h : Lib.Runs.Reach (step F conf) (stepGuard conf callGuard commitGuard)
      (start F flags d) l) : I.Holds l := by
  have hstart : I.Holds (start F flags d) := hinit
  exact h.invariant hstart fun _ _ _ hI hg hs => holds_step hI hg hs

end LoopInv

/-- The same for every run, when the invariant needs no guards. -/
theorem LoopInv.holds_reach_any {F : Fetcher δ ς α ι} {conf : Conf}
    {I : LoopInv F conf noCallGuard noCommitGuard} {flags : FetchFlags}
    {d : δ} {l : Loop δ ς α} (hinit : I.run [] { state := F.first, flags := flags } d)
    (h : Lib.Runs.Reach (step F conf) Lib.Runs.anyStep (start F flags d) l) : I.Holds l := by
  refine LoopInv.holds_reach hinit (h.mono fun l a _ => ?_)
  cases a <;> simp [stepGuard, noCallGuard, noCommitGuard]

end Fdm.Fetch
