import Fdm.Privsep.Flow
import Mathlib.Algebra.GroupWithZero.Nat

/-!
# Messages arrive in order, and nobody waits for ever

`Inv` is what holds of the two processes in every state of a run; `step_inv` is about one step of
one of them, whatever the other is doing.

* `received_in_order`: what is received is what was sent, in its order;
* `blocked_idle`: the two do not wait for each other while there is something to be done;
* `moved_le`: a byte is written once and read once.
-/

namespace Fdm.Privsep

open Lib.Runs

variable {n : ℕ}

/-! ## The invariant -/

structure Inv (s : Sys n) : Prop where
  flow : ∀ x, Flow (s x).view (s x.other).view
  own : ∀ x, Local (s x)

@[simp] theorem Sys.set_self (s : Sys n) (x : Side) (p : Party n) : s.set x p x = p := if_pos rfl

@[simp] theorem Sys.set_other (s : Sys n) (x : Side) (p : Party n) :
    s.set x p x.other = s x.other := if_neg x.other_ne

@[simp] theorem Sys.set_set (s : Sys n) (x : Side) (p q : Party n) :
    (s.set x p).set x.other q x = p := by
  rw [Sys.set, if_neg x.other_ne.symm, Sys.set_self]

/-- There are two sides. -/
theorem Side.eq_or (x y : Side) : y = x ∨ y = x.other := by
  cases x <;> cases y <;> decide

/-- To show something of both processes. -/
theorem Side.both {P : Side → Prop} (x : Side) (h : P x) (h' : P x.other) (y : Side) : P y := by
  rcases x.eq_or y with rfl | rfl
  · exact h
  · exact h'

/-- The flow from the other side to this one. -/
theorem Inv.back {s : Sys n} (h : Inv s) (x : Side) : Flow (s x.other).view (s x).view := by
  have hflow := h.flow x.other
  rwa [Side.other_other] at hflow

/-- The invariant, from the point of view of one side. -/
theorem Inv.intro {s : Sys n} (x : Side) (hflow : Flow (s x).view (s x.other).view)
    (hback : Flow (s x.other).view (s x).view) (hown : Local (s x)) (hother : Local (s x.other)) :
    Inv s := by
  refine ⟨Side.both x hflow ?_, Side.both x hown hother⟩
  rwa [Side.other_other]

/-- One side changes, and nothing is lost in its flows. -/
theorem Inv.set {s : Sys n} (h : Inv s) {x : Side} {p : Party n}
    (hflow : ∀ w, (Flow (s x).view w → Flow p.view w) ∧ (Flow w (s x).view → Flow w p.view))
    (hlocal : Local p) : Inv (s.set x p) := by
  refine Inv.intro x ?_ ?_ ?_ ?_ <;> simp only [Sys.set_self, Sys.set_other]
  · exact (hflow _).1 (h.flow x)
  · exact (hflow _).2 (h.back x)
  · exact hlocal
  · exact h.own x.other

/-! ## The bytes that are moved -/

/-- The bytes that are written. -/
def Event.written : Event n → ℕ
  | .wrote (.wrote k) => k
  | _ => 0

/-- The bytes that are read. -/
def Event.got : Event n → ℕ
  | .read g => g.moved
  | _ => 0

/-- The number of bytes of all that a process has sent. -/
def volume (p : Party n) : ℕ := (wires p.sent).length

/-- So many for one process. -/
def only (x : Side) (k : ℕ) : Side → ℕ := fun y => if y = x then k else 0

@[simp] theorem only_self (x : Side) (k : ℕ) : only x k x = k := if_pos rfl

@[simp] theorem only_other (x : Side) (k : ℕ) : only x k x.other = 0 := if_neg x.other_ne

@[simp] theorem only_zero (x y : Side) : only x 0 y = 0 := ite_self 0

/-- The view of a side has what the side has sent. -/
theorem Party.sent_view (p : Party n) : p.view.sent = p.sent := by
  cases hpc : p.pc <;> simp only [view, hpc] <;> rfl

theorem Party.received_view (p : Party n) : p.view.received = p.received := by
  cases hpc : p.pc <;> simp only [view, hpc] <;> rfl

theorem Party.inp_view (p : Party n) : p.view.inp = p.io.rd.contents := by
  cases hpc : p.pc <;> simp only [view, hpc] <;> rfl

theorem Party.queue_view (p : Party n) : p.view.queue = p.queue := by
  cases hpc : p.pc <;> simp only [view, hpc] <;> rfl

theorem Party.stopped_view (p : Party n) : p.view.stopped = p.stopped := by
  cases hpc : p.pc <;> simp only [view, stopped, hpc] <;> rfl

/-- What becomes of the two processes while each of them writes and reads so many bytes. -/
structure Good (s s' : Sys n) (written got : Side → ℕ) : Prop where
  inv : Inv s'
  writes : ∀ x, written x + (s' x).view.toWrite + volume (s x) ≤
    (s x).view.toWrite + volume (s' x)
  reads : ∀ x, got x + (s' x).queue.length ≤ (s x).queue.length + written x.other

/-- What is written and read in two stretches adds up. -/
theorem Good.trans {s t u : Sys n} {written got written' got' : Side → ℕ}
    (h : Good s t written got) (h' : Good t u written' got') :
    Good s u (fun x => written x + written' x) (fun x => got x + got' x) where
  inv := h'.inv
  writes x := by
    have hfirst := h.writes x
    have hlast := h'.writes x
    omega
  reads x := by
    have hfirst := h.reads x
    have hlast := h'.reads x
    omega

/-- A process that does something to its own view. -/
theorem Inv.good {s : Sys n} (h : Inv s) {x : Side} {p : Party n} {k : ℕ}
    (hkeeps : Keeps (s x).view p.view) (hlocal : Local p)
    (hqueue : k + p.view.queue.length ≤ (s x).view.queue.length) :
    Good s (s.set x p) (only x 0) (only x k) := by
  have hsent := hkeeps.sent
  have hwrite := hkeeps.toWrite
  rw [Party.sent_view, Party.sent_view] at hsent
  rw [Party.queue_view, Party.queue_view] at hqueue
  refine ⟨h.set hkeeps.flow hlocal, Side.both x ?_ ?_, Side.both x ?_ ?_⟩
  · simp only [Sys.set_self, only_zero, volume, hsent]
    omega
  · simp only [Sys.set_other, only_zero]
    omega
  · simp only [Sys.set_self, only_self, only_zero]
    omega
  · simp only [Sys.set_other, only_other, only_zero]
    omega

/-- A side does something that moves no bytes of a message. -/
theorem Inv.quiet {s : Sys n} (h : Inv s) {x : Side} {p : Party n}
    (hp : Keeps (s x).view p.view ∧ Local p) : Good s (s.set x p) (only x 0) (only x 0) :=
  h.good hp.1 hp.2 (by have := hp.1.queue; omega)

/-! ## Steps -/

/-- A message that is sent has not moved any of its bytes. -/
theorem send_good {s : Sys n} (h : Inv s) {x : Side} {p : Party n} (hpc : (s x).pc = .idle)
    (msg : Msg n) (buf : Msgbuf) (hsend : (s x).send (frame msg buf) = some p) :
    Good s (s.set x p) (only x 0) (only x 0) := by
  have hsize : (frame msg buf).1.size.toNat = (frame msg buf).2.length :=
    UInt64.toNat_ofNat_of_lt' buf.property
  obtain ⟨p', hsend', hview, hlocal⟩ := Party.send_spec (f := frame msg buf) hpc
  obtain rfl := Option.some.inj (hsend'.symm.trans hsend)
  have hview' : p'.view = { (s x).view with
      sent := (s x).view.sent ++ [frame msg buf],
      out := (s x).view.out.map (· ++ (frame msg buf).wire) } := by
    rw [hview, Party.sent_view]
  have hsent : p'.sent = (s x).sent ++ [frame msg buf] := by rw [← Party.sent_view, hview]
  have hqueue : p'.queue = (s x).queue := by rw [← Party.queue_view, hview, Party.queue_view]
  have hwrite : p'.view.toWrite ≤ (s x).view.toWrite + (frame msg buf).wire.length := by
    rw [hview]
    cases hout : (s x).view.out with
    | none => simp [View.toWrite, hout]
    | some out => simp [View.toWrite, hout]
  refine ⟨h.set (fun w => ?_) hlocal, Side.both x ?_ ?_, Side.both x ?_ ?_⟩
  · rw [hview']
    exact flow_send hsize w
  · simp only [Sys.set_self, only_zero, volume, hsent, wires_snoc, List.length_append]
    omega
  · simp only [Sys.set_other, only_zero]
    omega
  · simp only [Sys.set_self, only_zero, hqueue]
    omega
  · simp only [Sys.set_other, only_zero]
    omega

/-- Bytes that arrive are behind those that are in the queue. -/
theorem Party.view_arrive (p : Party n) (data : List Char) :
    (p.arrive data).view = { p.view with queue := p.view.queue ++ data } := by
  cases hpc : p.pc <;> simp only [view, arrive, hpc] <;> rfl

theorem Party.local_arrive {p : Party n} (h : Local p) (data : List Char) :
    Local (p.arrive data) := by
  refine ⟨h.push, h.idle, fun c hc => ?_, fun c hpc => ?_⟩
  · exact ⟨(h.ready c hc).flushed, (h.ready c hc).body⟩
  · have hwaits := h.waits c hpc
    cases c <;> exact hwaits

/-- A write takes the first bytes of the buffer; those behind them are still to be written. -/
theorem Party.read_wr {p : Party n} {c : Call n} {k : ℕ} (hready : Ready p c)
    (halive : p.alive = true) (hview : p.view = p.viewIn (some c)) (hk : k ≠ 0)
    (hsize : k ≤ p.wr.size) :
    ∃ wr, p.wr.read k = some (p.wr.contents.take k, wr) ∧
      p.view.out = some (p.wr.contents.take k ++ (wr.contents ++ c.pending)) ∧
      Party.viewIn { p with wr := wr } (some c) =
        { p.view with out := some (wr.contents ++ c.pending) } ∧
      Ready { p with wr := wr } c := by
  obtain ⟨wr, hread, hcontents⟩ := Buffer.read_spec hk hsize
  refine ⟨wr, hread, ?_, ?_, ⟨fun _ hsends => ?_, hready.body⟩⟩
  · rw [hview, hcontents, ← List.append_assoc, List.take_append_drop]
    exact if_pos halive
  · rw [hview]
    simp only [Party.viewIn, show Party.alive { p with wr := wr } = true from halive, if_true]
    rfl
  · have := hready.flushed halive hsends
    omega

/-- Bytes are written. -/
theorem wrote_good {s s' : Sys n} (h : Inv s) {x : Side} {c : Call n} {pollin : Bool} {k : ℕ}
    (hpc : (s x).pc = .push c pollin) (hk : k ≠ 0) (hwrote : wrote s x c pollin k = some s') :
    Good s s' (only x k) (only x 0) := by
  have hready : Ready (s x) c := (h.own x).ready c (by rw [hpc]; rfl)
  have halive : (s x).alive = true := (h.own x).push c pollin hpc
  have hview : (s x).view = (s x).viewIn (some c) := Party.view_of_call (by rw [hpc]; rfl)
  unfold wrote at hwrote
  split_ifs at hwrote
  obtain ⟨⟨data, wr⟩, hread, hwrote⟩ := Option.bind_eq_some_iff.mp hwrote
  obtain ⟨p, hpushed, rfl⟩ := Option.map_eq_some_iff.mp hwrote
  have hsize : k ≤ (s x).wr.size := by
    by_contra hlt
    rw [Buffer.read, Buffer.remove, dif_pos (by omega)] at hread
    cases hread
  -- the process without the bytes
  obtain ⟨wr', hread', hout, hview', hready'⟩ := Party.read_wr hready halive hview hk hsize
  obtain ⟨rfl, rfl⟩ := Prod.mk.inj (Option.some.inj (hread'.symm.trans hread))
  obtain ⟨p', hpushed', hkeeps, hlocal⟩ := Party.pushed_spec hready' pollin
  obtain rfl := Option.some.inj (hpushed'.symm.trans hpushed)
  rw [hview'] at hkeeps
  have harrive := (s x.other).view_arrive ((s x).wr.contents.take k)
  have hsent : p'.sent = (s x).sent := by
    have hsent := hkeeps.sent
    rwa [Party.sent_view, Party.sent_view] at hsent
  have htake : ((s x).wr.contents.take k).length = k := by
    rw [List.length_take, Buffer.length_contents]
    omega
  have hwrite : k + p'.view.toWrite ≤ (s x).view.toWrite := by
    rw [← toWrite_write hout, htake]
    exact Nat.add_le_add_left hkeeps.toWrite _
  have hread : p'.queue.length ≤ (s x).queue.length := by
    have hqueue := hkeeps.queue
    rwa [Party.queue_view, Party.queue_view] at hqueue
  have hother : ((s x.other).arrive ((s x).wr.contents.take k)).view.toWrite =
      (s x.other).view.toWrite := by
    rw [harrive]
    rfl
  have hqueue : ((s x.other).arrive ((s x).wr.contents.take k)).queue.length =
      (s x.other).queue.length + k := by
    rw [Party.arrive, List.length_append, htake]
  refine ⟨?_, Side.both x ?_ ?_, Side.both x ?_ ?_⟩
  · refine Inv.intro x ?_ ?_ ?_ ?_ <;> simp only [Sys.set_self, Sys.set_set]
    · rw [harrive]
      exact (hkeeps.flow _).1 (flow_write hout (h.flow x))
    · rw [harrive]
      exact (hkeeps.flow _).2 ⟨(h.back x).sizes, (h.back x).frames⟩
    · exact hlocal
    · exact Party.local_arrive (h.own x.other) _
  · simp only [Sys.set_set, only_self, volume, hsent]
    omega
  · have hsame : volume ((s x.other).arrive ((s x).wr.contents.take k)) = volume (s x.other) := rfl
    simp only [Sys.set_self, only_other, hother, hsame]
    omega
  · simp only [Sys.set_set, only_zero, only_other]
    omega
  · simp only [Sys.set_self, only_zero, Side.other_other, only_self, hqueue]
    omega

/-- What a step writes and reads. -/
theorem step_good {s s' : Sys n} (h : Inv s) {x : Side} {e : Event n}
    (hstep : step s (x, e) = some s') : Good s s' (only x e.written) (only x e.got) := by
  have hexit : (s x).pc ≠ .stopped → Good s (s.set x (s x).stop) (only x 0) (only x 0) :=
    fun hrun => h.quiet (Party.exit_spec hrun)
  cases hpc : (s x).pc with
  | idle =>
    cases e with
    | send msg buf =>
      simp only [step, hpc] at hstep
      obtain ⟨p, hsend, rfl⟩ := Option.map_eq_some_iff.mp hstep
      exact send_good h hpc msg buf hsend
    | recv =>
      simp only [step, hpc] at hstep
      obtain ⟨p, hrecv, rfl⟩ := Option.map_eq_some_iff.mp hstep
      exact h.quiet (Party.recv_idle (h.own x) hpc hrecv)
    | poll =>
      simp only [step, hpc] at hstep
      obtain rfl := Option.some.inj hstep
      exact h.quiet (Party.poll_idle (h.own x) hpc)
    | exit =>
      simp only [step, hpc] at hstep
      obtain rfl := Option.some.inj hstep
      exact hexit (by rw [hpc]; nofun)
    | _ =>
      simp only [step, hpc] at hstep
      cases hstep
  | poll c =>
    cases e with
    | polled a =>
      simp only [step, hpc] at hstep
      obtain ⟨p, hpolled, rfl⟩ := Option.map_eq_some_iff.mp hstep
      exact h.quiet (Party.polled_spec (h.own x) hpc hpolled)
    | exit =>
      simp only [step, hpc] at hstep
      obtain rfl := Option.some.inj hstep
      exact hexit (by rw [hpc]; nofun)
    | _ =>
      simp only [step, hpc] at hstep
      cases hstep
  | push c pollin =>
    cases e with
    | wrote w =>
      have hquiet : ((s x).notWritten c pollin w).map (s.set x) = some s' →
          Good s s' (only x 0) (only x 0) := by
        intro hstep
        obtain ⟨p, hnot, rfl⟩ := Option.map_eq_some_iff.mp hstep
        exact h.quiet (Party.notWritten_spec (h.own x) hpc hnot)
      -- only a `write` that takes bytes moves any
      match w with
      | .wrote (k + 1) =>
        simp only [step, hpc] at hstep
        exact wrote_good h hpc (Nat.succ_ne_zero k) hstep
      | .wrote 0 | .again | .pipe | .failure _ =>
        simp only [step, hpc] at hstep
        exact hquiet hstep
    | exit =>
      simp only [step, hpc] at hstep
      obtain rfl := Option.some.inj hstep
      exact hexit (by rw [hpc]; nofun)
    | _ =>
      simp only [step, hpc] at hstep
      cases hstep
  | fill c =>
    cases e with
    | read g =>
      simp only [step, hpc] at hstep
      obtain ⟨p, hfilled, rfl⟩ := Option.map_eq_some_iff.mp hstep
      obtain ⟨hkeeps, hlocal, hqueue⟩ := Party.filled_spec (h.own x) hpc hfilled
      exact h.good hkeeps hlocal hqueue
    | exit =>
      simp only [step, hpc] at hstep
      obtain rfl := Option.some.inj hstep
      exact hexit (by rw [hpc]; nofun)
    | _ =>
      simp only [step, hpc] at hstep
      cases hstep
  | stopped =>
    simp only [step, hpc] at hstep
    cases hstep

/-! ## Runs -/

/-- A run of the two processes from `child_start` on. -/
structure Run (n : ℕ) where
  events : List (Side × Event n)
  first : Sys n
  last : Sys n
  created : create = some first
  ran : exec step first events = some last

/-- The bytes that a process writes in a run. -/
def written (events : List (Side × Event n)) (x : Side) : ℕ :=
  (events.map fun e => only e.1 e.2.written x).sum

/-- The bytes that it reads. -/
def got (events : List (Side × Event n)) (x : Side) : ℕ :=
  (events.map fun e => only e.1 e.2.got x).sum

/-- A process that has just been started. -/
def fresh (b : Buffer) (eol : List Char) : Party n where
  io := { rd := b, eol := eol }
  wr := b

/-- The two processes at the beginning. -/
def freshPair (b : Buffer) : Sys n
  | .parent => fresh b ioCrlf
  | .child => fresh b ioLf

/-- Both sides begin with the same empty buffer. -/
theorem create_eq : ∃ b : Buffer, b.size = 0 ∧ create (n := n) = some (freshPair b) := by
  obtain ⟨b, hcreate, hcontents⟩ := Buffer.create_spec (n := ioBlocksize) (by decide)
  refine ⟨b, Buffer.contents_eq_nil.mp hcontents, ?_⟩
  have hparty : ∀ eol, Party.create (n := n) eol = some (fresh b eol) := by
    intro eol
    rw [Party.create, Io.create, hcreate]
    rfl
  rw [create, hparty, hparty]
  refine congrArg some (funext fun x => ?_)
  cases x <;> rfl

/-- A pair of sides that has just been made has nothing to move. -/
theorem create_good {s : Sys n} (h : create = some s) :
    Inv s ∧ ∀ x, (s x).view.toWrite = 0 ∧ (s x).queue = [] ∧ volume (s x) = 0 := by
  obtain ⟨b, hsize, hcreate⟩ := create_eq (n := n)
  rw [hcreate] at h
  obtain rfl := Option.some.inj h
  have hcontents : b.contents = [] := Buffer.contents_eq_nil.mpr hsize
  have hview : ∀ eol, (fresh (n := n) b eol).view = ⟨[], [], [], [], [], some [], false⟩ := by
    intro eol
    show (⟨[], [], [], b.contents, [], some (b.contents ++ []), false⟩ : View n) = _
    rw [hcontents]
    rfl
  have hflow : ∀ eol eol', Flow (fresh (n := n) b eol).view (fresh b eol').view := by
    intro eol eol'
    rw [hview, hview]
    exact ⟨nofun, [], rfl, fun _ => ⟨[], rfl, fun _ hsome => Option.some.inj hsome⟩⟩
  have hlocal : ∀ eol, Local (fresh (n := n) b eol) := fun eol => Party.local_idle rfl fun _ => hsize
  have hnone : ∀ eol, (fresh (n := n) b eol).view.toWrite = 0 := by
    intro eol
    rw [hview]
    rfl
  refine ⟨Inv.intro .parent (hflow _ _) (hflow _ _) (hlocal _) (hlocal _), ?_⟩
  rintro (_ | _)
  · exact ⟨hnone _, rfl, rfl⟩
  · exact ⟨hnone _, rfl, rfl⟩

/-- What a run writes and reads, by induction over its steps. -/
theorem exec_good {s s' : Sys n} (h : Inv s) {events : List (Side × Event n)}
    (hexec : exec step s events = some s') : Good s s' (written events) (got events) := by
  induction events generalizing s with
  | nil =>
    obtain rfl := Option.some.inj hexec
    exact ⟨h, fun x => by simp [written], fun x => by simp [got, written]⟩
  | cons e events ih =>
    obtain ⟨t, hstep, hrest⟩ := Option.bind_eq_some_iff.mp hexec
    have hfirst := step_good h hstep
    exact hfirst.trans (ih hfirst.inv hrest)

theorem Run.good (r : Run n) : Good r.first r.last (written r.events) (got r.events) :=
  exec_good (create_good r.created).1 r.ran

theorem Run.inv (r : Run n) : Inv r.last := r.good.inv

/-- The header of a message that a process has begun to read. -/
def Party.begun (p : Party n) : List Char := (p.pc.call.map Call.pre).getD []

/-- What a process has still to write: what is in the buffer, and what comes with the message. -/
def Party.unsent (p : Party n) : List Char :=
  p.wr.contents ++ (p.pc.call.map Call.pending).getD []

theorem Party.pre_view (p : Party n) : p.view.pre = p.begun := by
  cases hpc : p.pc <;> simp only [view, begun, hpc] <;> rfl

/-- What a side that runs has still to write is in its buffer. -/
theorem Party.out_view {p : Party n} (hrun : p.stopped = false) (halive : p.alive = true) :
    p.view.out = some p.unsent := by
  have hview : p.view = p.viewIn p.pc.call := by
    cases hpc : p.pc with
    | stopped =>
      rw [stopped, hpc] at hrun
      cases hrun
    | _ => simp only [view, hpc]
  rw [hview]
  exact if_pos halive

/-- Whatever the two processes do and wherever their system calls stop, each of them has received
the first of the messages sent to it, whole and in order. The bytes of the others lie, without a
gap, in the header that it has begun to read, in its buffer, in the socket and with the sender, as
long as that can write. -/
theorem received_in_order (r : Run n) (x : Side) :
    ∃ inflight, (r.last x).sent = (r.last x.other).received ++ inflight ∧
      ((r.last x.other).stopped = false →
        ∃ rest, wires inflight = (r.last x.other).begun ++
            ((r.last x.other).io.rd.contents ++ ((r.last x.other).queue ++ rest)) ∧
          ((r.last x).stopped = false → (r.last x).alive = true → rest = (r.last x).unsent)) := by
  obtain ⟨inflight, hsent, hrest⟩ := (r.inv.flow x).frames
  rw [Party.sent_view, Party.received_view] at hsent
  refine ⟨inflight, hsent, fun hstopped => ?_⟩
  obtain ⟨rest, hwires, hout⟩ := hrest (by rw [Party.stopped_view, hstopped])
  rw [Party.pre_view, Party.inp_view, Party.queue_view] at hwires
  exact ⟨rest, hwires, fun hrun halive => hout _ (Party.out_view hrun halive)⟩

/-- The process polls, and nothing is there to be read; nor can it write, unless the other one
has read what was written before. -/
def blocked (s : Sys n) (x : Side) : Prop :=
  ∃ c, (s x).pc = .poll c ∧ (s x).alive = true ∧ (s x).queue = [] ∧
    ((s x).wr.size = 0 ∨ (s x.other).queue ≠ [])

/-- A process with nothing to write is not sending. -/
theorem blocked_out {p : Party n} {c : Call n} (hlocal : Local p) (hpc : p.pc = .poll c)
    (halive : p.alive = true) (hsize : p.wr.size = 0) : p.view.out = some [] := by
  have hpending : c.pending = [] := by
    have hwaits := hlocal.waits c hpc
    cases c with
    | header buf => exact absurd hsize hwaits
    | _ => rfl
  rw [Party.view_of_call (c := c) (by rw [hpc]; rfl)]
  simp only [Party.viewIn, halive, if_true, Option.map_some, Option.getD_some, hpending,
    Buffer.contents_eq_nil.mpr hsize, List.append_nil]

/-- The two processes never wait for each other in vain. When neither can go on, none of them is
sending, and one that waits for a message has received all that were sent to it. -/
theorem blocked_idle (r : Run n) (h : ∀ x, blocked r.last x) (x : Side) :
    (r.last x).pc = .poll .poll ∨
      ((r.last x).pc = .poll .recv ∧ (r.last x.other).sent = (r.last x).received) := by
  obtain ⟨c, hpc, halive, hqueue, hwr⟩ := h x
  obtain ⟨c', hpc', halive', hqueue', hwr'⟩ := h x.other
  rw [Side.other_other] at hwr'
  have hsize : (r.last x).wr.size = 0 := hwr.resolve_right (not_not.mpr hqueue')
  have hsize' : (r.last x.other).wr.size = 0 := hwr'.resolve_right (not_not.mpr hqueue)
  have hwaits := (r.inv.own x).waits c hpc
  -- all that was sent to the process is in its buffer
  have hview : (r.last x).view = (r.last x).viewIn (some c) :=
    Party.view_of_call (by rw [hpc]; rfl)
  obtain ⟨inflight, hsent, hrest⟩ := (r.inv.back x).frames
  obtain ⟨rest, hwires, hout⟩ := hrest (by rw [hview]; rfl)
  have hnil : rest = [] := hout [] (blocked_out (r.inv.own x.other) hpc' halive' hsize')
  have hpre : (r.last x).view.pre = c.pre := by
    rw [hview]
    rfl
  rw [hnil, List.append_nil, Party.queue_view, hqueue, List.append_nil, Party.inp_view,
    hpre] at hwires
  rw [Party.sent_view, Party.received_view] at hsent
  cases c with
  | header buf => exact absurd hsize hwaits
  | payload => exact absurd hsize hwaits
  | poll => exact .inl hpc
  | recv =>
    refine .inr ⟨hpc, ?_⟩
    cases inflight with
    | nil => rw [hsent, List.append_nil]
    | cons f fs =>
      have hlen := congrArg List.length hwires
      have himage := f.1.length_image
      change (r.last x).io.rd.size < sizeofMsg n at hwaits
      simp only [Call.pre, List.nil_append, wires_cons, Frame.wire, List.length_append,
        Buffer.length_contents] at hlen
      omega
  | body msg =>
    obtain ⟨f, fs, rfl, himage, hbody⟩ := wires_header hwires msg.length_image
    obtain rfl : msg = f.1 := Msg.image_injective himage
    have hsizes := (r.inv.back x).sizes f (by rw [Party.sent_view, hsent]; simp)
    have hlen := congrArg List.length hbody
    change (r.last x).io.rd.size < f.1.size.toNat at hwaits
    simp only [List.length_append, Buffer.length_contents] at hlen
    omega

/-- The parent sends a message, and the child receives it and waits for another one. -/
def oneMessage : List (Side × Event 0) :=
  [(.parent, .send { id := 7, type := .exit, size := 0, data := ⟨[], rfl⟩ } ⟨[], by decide⟩),
    (.parent, .polled (.ready { pollout := true })), (.parent, .wrote (.wrote 16)),
    (.child, .recv), (.child, .polled (.ready { pollin := true })), (.child, .read (.bytes 16)),
    (.child, .read .again), (.parent, .poll), (.child, .recv)]

/-- The two processes at first, and behind that. -/
def twoParties : Sys 0 := (create (n := 0)).get (by decide +kernel)

def oneReceived : Sys 0 := (exec step twoParties oneMessage).get (by decide +kernel)

theorem blocked_idle_recv : ∃ r : Run 0, (∀ x, blocked r.last x) ∧
    (r.last .child).pc = .poll .recv ∧ (r.last .parent).sent = (r.last .child).received ∧
      (r.last .parent).sent.length = 1 := by
  let r : Run 0 :=
    ⟨oneMessage, twoParties, oneReceived, (Option.some_get _).symm, (Option.some_get _).symm⟩
  have hpolls : (oneReceived .parent).pc = .poll .poll ∧ (oneReceived .child).pc = .poll .recv := by
    decide +kernel
  have hblocked : ∀ x, blocked r.last x := by
    rintro (_ | _)
    · exact ⟨.poll, hpolls.1, by decide +kernel⟩
    · exact ⟨.recv, hpolls.2, by decide +kernel⟩
  refine ⟨r, hblocked, ?_⟩
  rcases blocked_idle r hblocked .child with hpoll | ⟨hrecv, hsent⟩
  · rw [show (r.last .child).pc = .poll .recv from hpolls.2] at hpoll
    cases hpoll
  · exact ⟨hrecv, hsent, by decide +kernel⟩

/-- The system calls of a run move each byte of the messages of a process at most once out of it,
and at most once into the other one; so there is an end to every call of `privsep_send`. -/
theorem moved_le (r : Run n) (x : Side) :
    got r.events x.other ≤ written r.events x ∧ written r.events x ≤ volume (r.last x) := by
  obtain ⟨-, hfirst⟩ := create_good r.created
  obtain ⟨hwrite, -, hvolume⟩ := hfirst x
  obtain ⟨-, hqueue, -⟩ := hfirst x.other
  have hwrites := r.good.writes x
  have hreads := r.good.reads x.other
  rw [hqueue, Side.other_other, List.length_nil] at hreads
  constructor <;> omega

end Fdm.Privsep
