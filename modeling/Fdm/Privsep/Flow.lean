import Fdm.Privsep.Defs
import Fdm.Io.Readline
import Mathlib.Tactic.SplitIfs

/-!
# The bytes between two processes

All that matters of a process for the other one is its `View`: the messages, the bytes that have
arrived and those still to be written. `Flow` says how two views fit together, and a call that
keeps it does so whatever the other process is doing.

* `resume_keeps`, `polled_keeps`, `filled_keeps`, ...: what one process does to its own view;
* `flow_write`: the bytes that go from one to the other.
-/

namespace Fdm

/-- Bytes are put behind those in the buffer. -/
theorem Buffer.write_spec {b : Buffer} {data : List Char} (hne : data ≠ []) :
    ∃ b', b.write data = some b' ∧ b'.contents = b.contents ++ data := by
  obtain ⟨b₁, hensure, hcontents, hfree⟩ :=
    Buffer.ensure_spec b (n := data.length) (by simpa using hne)
  obtain ⟨b', hadd, hcontents'⟩ := Buffer.add_spec hne hfree
  refine ⟨b', ?_, by rw [hcontents', hcontents]⟩
  rw [Buffer.write, if_neg hne, hensure, Option.bind_some, hadd]

theorem Buffer.contents_eq_nil {b : Buffer} : b.contents = [] ↔ b.size = 0 := by
  rw [← List.length_eq_zero_iff, Buffer.length_contents]

namespace Privsep

variable {n : ℕ}

/-! ## Views -/

/-- What there is of a process for the other one. `pre` is a header that has been read while the
rest is waited for; a process that cannot write any more has nothing in `out`. -/
structure View (n : ℕ) where
  sent : List (Frame n)
  received : List (Frame n)
  pre : List Char
  inp : List Char
  queue : List Char
  out : Option (List Char)
  stopped : Bool

/-- The number of bytes that are still to be written. -/
def View.toWrite (v : View n) : ℕ := (v.out.getD []).length

/-- The bytes of some messages. -/
def wires (fs : List (Frame n)) : List Char := fs.flatMap Frame.wire

@[simp] theorem wires_nil : wires ([] : List (Frame n)) = [] := rfl

@[simp] theorem wires_cons (f : Frame n) (fs : List (Frame n)) :
    wires (f :: fs) = f.wire ++ wires fs := List.flatMap_cons

/-- A frame is sent behind the others. -/
theorem wires_snoc (fs : List (Frame n)) (f : Frame n) : wires (fs ++ [f]) = wires fs ++ f.wire := by
  rw [wires, List.flatMap_append, List.flatMap_singleton, wires]

/-- The bytes on their way to `b` are those of the messages that it has not received; as long as
`a` can write, what is still missing of them is what it is going to write. -/
structure Flow (a b : View n) : Prop where
  sizes : ∀ f ∈ a.sent, f.1.size.toNat = f.2.length
  frames : ∃ inflight, a.sent = b.received ++ inflight ∧
    (b.stopped = false → ∃ rest, wires inflight = b.pre ++ (b.inp ++ (b.queue ++ rest)) ∧
      ∀ out, a.out = some out → rest = out)

/-- What a process does to its own view does no harm, whatever the other one is. -/
structure Keeps (v v' : View n) : Prop where
  flow : ∀ w, (Flow v w → Flow v' w) ∧ (Flow w v → Flow w v')
  sent : v'.sent = v.sent
  toWrite : v'.toWrite ≤ v.toWrite
  queue : v'.queue.length ≤ v.queue.length

theorem Keeps.refl (v : View n) : Keeps v v := ⟨fun _ => ⟨id, id⟩, rfl, le_rfl, le_rfl⟩

/-- What two steps keep they keep together. -/
theorem Keeps.trans {v v' v'' : View n} (h : Keeps v v') (h' : Keeps v' v'') : Keeps v v'' where
  flow w := ⟨fun hw => (h'.flow w).1 ((h.flow w).1 hw), fun hw => (h'.flow w).2 ((h.flow w).2 hw)⟩
  sent := h'.sent.trans h.sent
  toWrite := h'.toWrite.trans h.toWrite
  queue := h'.queue.trans h.queue

/-- Nothing is written any more. -/
theorem keeps_lost (v : View n) : Keeps v { v with out := none } := by
  refine ⟨fun w => ⟨fun h => ⟨h.sizes, ?_⟩, fun h => ⟨h.sizes, h.frames⟩⟩, rfl, ?_, le_rfl⟩
  · obtain ⟨inflight, hsent, hrest⟩ := h.frames
    refine ⟨inflight, hsent, fun hstopped => ?_⟩
    obtain ⟨rest, hwires, -⟩ := hrest hstopped
    exact ⟨rest, hwires, nofun⟩
  · simp [View.toWrite]

/-- Nothing is read any more, and what has been read does not matter. -/
theorem keeps_stop (v : View n) (pre : List Char) :
    Keeps v { v with pre := pre, out := none, stopped := true } := by
  refine (keeps_lost v).trans ⟨fun w => ⟨fun h => ⟨h.sizes, h.frames⟩, fun h => ⟨h.sizes, ?_⟩⟩,
    rfl, le_rfl, le_rfl⟩
  obtain ⟨inflight, hsent, -⟩ := h.frames
  exact ⟨inflight, hsent, nofun⟩

/-- Bytes that begin with a header are those of a message and more. -/
theorem wires_header {inflight : List (Frame n)} {s t : List Char}
    (h : wires inflight = s ++ t) (hs : s.length = sizeofMsg n) :
    ∃ f fs, inflight = f :: fs ∧ s = f.1.image ∧ t = f.2 ++ wires fs := by
  cases inflight with
  | nil =>
    have := congrArg List.length h
    rw [wires_nil, List.length_nil, List.length_append, hs, sizeofMsg] at this
    omega
  | cons f fs =>
    rw [wires_cons, Frame.wire, List.append_assoc] at h
    obtain ⟨himage, hrest⟩ := List.append_inj h (by rw [f.1.length_image, hs])
    exact ⟨f, fs, rfl, himage.symm, hrest.symm⟩

/-- A header is read. -/
theorem keeps_header {v : View n} {s t : List Char} (hrun : v.stopped = false)
    (hpre : v.pre = []) (hinp : v.inp = s ++ t) (hs : s.length = sizeofMsg n) :
    Keeps v { v with pre := (Msg.ofImage s : Msg n).image, inp := t } := by
  refine ⟨fun w => ⟨fun h => ⟨h.sizes, h.frames⟩, fun h => ⟨h.sizes, ?_⟩⟩, rfl, le_rfl, le_rfl⟩
  obtain ⟨inflight, hsent, hrest⟩ := h.frames
  obtain ⟨rest, hwires, hout⟩ := hrest hrun
  refine ⟨inflight, hsent, fun _ => ?_⟩
  rw [hpre, hinp, List.nil_append, List.append_assoc] at hwires
  obtain ⟨f, fs, -, himage, -⟩ := wires_header hwires hs
  refine ⟨rest, ?_, hout⟩
  dsimp only
  rw [hwires, himage, Msg.ofImage_image]

/-- A message is received. -/
theorem keeps_frame {v : View n} {msg : Msg n} {buf t : List Char} (hrun : v.stopped = false)
    (hpre : v.pre = msg.image) (hinp : v.inp = buf ++ t) (hbuf : buf.length = msg.size.toNat) :
    Keeps v { v with pre := [], inp := t, received := v.received ++ [(msg, buf)] } := by
  refine ⟨fun w => ⟨fun h => ⟨h.sizes, h.frames⟩, fun h => ⟨h.sizes, ?_⟩⟩, rfl, le_rfl, le_rfl⟩
  obtain ⟨inflight, hsent, hrest⟩ := h.frames
  obtain ⟨rest, hwires, hout⟩ := hrest hrun
  rw [hpre] at hwires
  obtain ⟨f, fs, rfl, himage, htail⟩ := wires_header hwires msg.length_image
  obtain rfl : msg = f.1 := Msg.image_injective himage
  have hsize := h.sizes f (by rw [hsent]; simp)
  rw [hinp, List.append_assoc] at htail
  obtain ⟨rfl, hrest'⟩ := List.append_inj htail (by rw [hbuf, hsize])
  refine ⟨fs, ?_, fun _ => ⟨rest, ?_, hout⟩⟩
  · dsimp only
    rw [hsent, List.append_assoc]
    rfl
  · dsimp only
    rw [List.nil_append, hrest']

/-- Bytes are read. -/
theorem keeps_read {v : View n} {data queue : List Char} (hqueue : v.queue = data ++ queue) :
    Keeps v { v with inp := v.inp ++ data, queue := queue } := by
  refine ⟨fun w => ⟨fun h => ⟨h.sizes, h.frames⟩, fun h => ⟨h.sizes, ?_⟩⟩, rfl, le_rfl, ?_⟩
  · obtain ⟨inflight, hsent, hrest⟩ := h.frames
    refine ⟨inflight, hsent, fun hstopped => ?_⟩
    obtain ⟨rest, hwires, hout⟩ := hrest hstopped
    refine ⟨rest, ?_, hout⟩
    rw [hwires, hqueue]
    simp only [List.append_assoc]
  · rw [hqueue, List.length_append]
    exact Nat.le_add_left _ _

/-- A message is sent; its bytes are to be written behind the others. -/
theorem flow_send {v : View n} {f : Frame n} (hf : f.1.size.toNat = f.2.length) (w : View n) :
    (Flow v w → Flow { v with sent := v.sent ++ [f], out := v.out.map (· ++ f.wire) } w) ∧
      (Flow w v → Flow w { v with sent := v.sent ++ [f], out := v.out.map (· ++ f.wire) }) := by
  refine ⟨fun h => ⟨?_, ?_⟩, fun h => ⟨h.sizes, h.frames⟩⟩
  · intro g hg
    rcases List.mem_append.mp hg with hg | hg
    · exact h.sizes g hg
    · rw [List.mem_singleton.mp hg, hf]
  · obtain ⟨inflight, hsent, hrest⟩ := h.frames
    refine ⟨inflight ++ [f], ?_, fun hstopped => ?_⟩
    · dsimp only
      rw [hsent, List.append_assoc]
    · obtain ⟨rest, hwires, hout⟩ := hrest hstopped
      refine ⟨rest ++ f.wire, ?_, ?_⟩
      · rw [wires_snoc, hwires]
        simp only [List.append_assoc]
      · intro out hsome
        obtain ⟨o, ho, rfl⟩ := Option.map_eq_some_iff.mp hsome
        rw [hout o ho]

/-- Bytes go from one process to the other. -/
theorem flow_write {v w : View n} {data out : List Char} (hout : v.out = some (data ++ out))
    (h : Flow v w) : Flow { v with out := some out } { w with queue := w.queue ++ data } := by
  refine ⟨h.sizes, ?_⟩
  obtain ⟨inflight, hsent, hrest⟩ := h.frames
  refine ⟨inflight, hsent, fun hstopped => ?_⟩
  obtain ⟨rest, hwires, heq⟩ := hrest hstopped
  refine ⟨out, ?_, fun _ hsome => Option.some.inj hsome⟩
  rw [hwires, heq _ hout]
  simp only [List.append_assoc]

/-- Bytes that are written are no longer to be written. -/
theorem toWrite_write {v : View n} {data out : List Char} (hout : v.out = some (data ++ out)) :
    data.length + View.toWrite { v with out := some out } = v.toWrite := by
  rw [View.toWrite, View.toWrite, hout, Option.getD_some, Option.getD_some, List.length_append]

/-! ## The view of a process -/

namespace Party

variable (p : Party n)

/-- Nothing keeps the process from writing. -/
def alive : Bool := p.io.error.isNone && !p.io.closed

theorem alive_iff {p : Party n} : p.alive = true ↔ p.io.error = none ∧ p.io.closed = false := by
  rw [alive, Bool.and_eq_true, Option.isNone_iff_eq_none, Bool.not_eq_true']

end Party

/-- What a call is going to write once its buffer is empty. -/
def Call.pending : Call n → List Char
  | .header buf => buf
  | _ => []

/-- The header that a call has read. -/
def Call.pre : Call n → List Char
  | .body msg => msg.image
  | _ => []

namespace Party

variable (p : Party n)

/-- The view of a process that is in a call, or in none. -/
def viewIn (c : Option (Call n)) : View n where
  sent := p.sent
  received := p.received
  pre := (c.map Call.pre).getD []
  inp := p.io.rd.contents
  queue := p.queue
  out := if p.alive then some (p.wr.contents ++ (c.map Call.pending).getD []) else none
  stopped := false

def view : View n :=
  match p.pc with
  | .stopped => { p.viewIn none with out := none, stopped := true }
  | pc => p.viewIn pc.call

variable {p}

/-- The view of a side in a call. -/
theorem view_of_call {c : Call n} (h : p.pc.call = some c) : p.view = p.viewIn (some c) := by
  cases hpc : p.pc <;> rw [hpc] at h <;> cases h <;> rw [view, hpc] <;> rfl

/-- The view of a side between its calls. -/
theorem view_of_idle (h : p.pc = .idle) : p.view = p.viewIn none := by
  rw [view, h]
  rfl

/-- A call that has nothing to write and has read nothing might as well not be there. -/
theorem viewIn_none {c : Call n} (hpending : c.pending = []) (hpre : c.pre = []) :
    p.viewIn (some c) = p.viewIn none := by
  simp only [viewIn, Option.map_some, Option.getD_some, hpending, hpre, Option.map_none,
    Option.getD_none]

/-- A side that stops loses nothing that it has handed out. -/
theorem keeps_stopped (c : Option (Call n)) : Keeps (p.viewIn c) p.stop.view := keeps_stop _ []

/-- A process that cannot write looks the same in every call that has read nothing. -/
theorem viewIn_dead {c c' : Option (Call n)} (h : p.alive = false)
    (hpre : (c.map Call.pre).getD [] = (c'.map Call.pre).getD []) : p.viewIn c = p.viewIn c' := by
  simp only [viewIn, h, hpre, Bool.false_eq_true, if_false]

/-- A side whose socket is dead reads no more. -/
theorem keeps_dead {p' : Party n} {c : Option (Call n)} (hdead : p'.alive = false)
    (hsent : p'.sent = p.sent) (hreceived : p'.received = p.received)
    (hinp : p'.io.rd = p.io.rd) (hqueue : p'.queue = p.queue) :
    Keeps (p.viewIn c) (p'.viewIn c) := by
  have hview : p'.viewIn c = { p.viewIn c with out := none } := by
    simp only [viewIn, hdead, hsent, hreceived, hinp, hqueue, Bool.false_eq_true, if_false]
  rw [hview]
  exact keeps_lost _

theorem keeps_close (c : Option (Call n)) : Keeps (p.viewIn c) (p.close.viewIn c) :=
  keeps_dead (by simp [alive, close]) rfl rfl rfl rfl

theorem keeps_fault (cause : List Char) (c : Option (Call n)) :
    Keeps (p.viewIn c) ((p.fault cause).viewIn c) :=
  keeps_dead (by simp [alive, fault]) rfl rfl rfl rfl

/-! ## What holds of a process by itself -/

end Party

/-- A call of `privsep_send`. -/
def Call.sends : Call n → Bool
  | .header _ | .payload => true
  | _ => false

/-- What the loop of a call waits for has not happened. -/
def Call.waits (p : Party n) : Call n → Prop
  | .header _ | .payload => p.wr.size ≠ 0
  | .recv => p.io.rd.size < sizeofMsg n
  | .body msg => p.io.rd.size < msg.size.toNat
  | .poll => True

/-- A process can go on with a call. -/
structure Ready (p : Party n) (c : Call n) : Prop where
  flushed : p.alive = true → c.sends = false → p.wr.size = 0
  body : ∀ msg, c = .body msg → msg.size ≠ 0

/-- Nothing is left in the buffer outside of `privsep_send`, and a process that polls has a reason
to. -/
structure Local (p : Party n) : Prop where
  push : ∀ c pollin, p.pc = .push c pollin → p.alive = true
  idle : p.alive = true → p.pc = .idle → p.wr.size = 0
  ready : ∀ c, p.pc.call = some c → Ready p c
  waits : ∀ c, p.pc = .poll c → c.waits p

namespace Party

variable {p : Party n}

/-- A side between its calls has written all. -/
theorem local_idle (hpc : p.pc = .idle) (h : p.alive = true → p.wr.size = 0) : Local p := by
  refine ⟨?_, fun halive _ => h halive, ?_, ?_⟩ <;> rw [hpc]
  · nofun
  · nofun
  · nofun

theorem local_stop : Local p.stop := ⟨nofun, nofun, nofun, nofun⟩

/-- A side that waits in a call. -/
theorem local_poll {c : Call n} (h : Ready p c) (hwaits : c.waits p) :
    Local { p with pc := .poll c } := by
  refine ⟨nofun, nofun, ?_, ?_⟩
  · rintro _ ⟨⟩
    exact ⟨h.flushed, h.body⟩
  · rintro _ ⟨⟩
    cases c <;> exact hwaits

/-- A side that reads in a call. -/
theorem local_fill {c : Call n} (h : Ready p c) : Local { p with pc := .fill c } := by
  refine ⟨nofun, nofun, ?_, nofun⟩
  rintro _ ⟨⟩
  exact ⟨h.flushed, h.body⟩

/-! ## The functions -/

/-- `io_write` puts bytes into the buffer. -/
theorem ioWrite_spec (p : Party n) {data : List Char} (hne : data ≠ []) :
    ∃ wr, p.ioWrite data = some { p with wr := wr } ∧
      (p.alive = true → wr.contents = p.wr.contents ++ data) := by
  unfold ioWrite
  split_ifs with herror
  · refine ⟨p.wr, rfl, fun halive => ?_⟩
    rw [(alive_iff.mp halive).1] at herror
    cases herror
  · obtain ⟨wr, hwrite, hcontents⟩ := Buffer.write_spec (b := p.wr) hne
    rw [hwrite]
    exact ⟨wr, rfl, fun _ => hcontents⟩

/-- Waiting for the payload of a message. -/
theorem payload_view (p : Party n) : p.payload.view = p.viewIn (some .payload) := by
  unfold payload
  split_ifs
  · rfl
  · exact (viewIn_none rfl rfl).symm

theorem payload_local (p : Party n) : Local p.payload := by
  unfold payload
  split_ifs with hsize
  · exact local_poll ⟨nofun, nofun⟩ hsize
  · exact local_idle rfl fun _ => not_not.mp hsize

/-- The header of a message is read, when it is there. -/
theorem header_spec (p : Party n) (buf : List Char) :
    ∃ p', p.header buf = some p' ∧ p'.view = p.viewIn (some (.header buf)) ∧ Local p' := by
  unfold header
  split_ifs with hsize hbuf
  · exact ⟨_, rfl, rfl, local_poll ⟨nofun, nofun⟩ hsize⟩
  · subst hbuf
    exact ⟨_, rfl, (viewIn_none rfl rfl).symm, local_idle rfl fun _ => not_not.mp hsize⟩
  · obtain ⟨wr, hwrite, hcontents⟩ := ioWrite_spec p hbuf
    refine ⟨_, by rw [hwrite]; rfl, ?_, payload_local _⟩
    rw [payload_view]
    cases halive : p.alive with
    | true =>
      have halive' : ({ p with wr := wr } : Party n).alive = true := halive
      simp only [viewIn, halive, halive', if_true, hcontents halive]
      simp [Call.pending, Call.pre]
    | false =>
      have halive' : ({ p with wr := wr } : Party n).alive = false := halive
      simp only [viewIn, halive, halive', Bool.false_eq_true, if_false]
      rfl

/-- `privsep_recv` has read the rest of a message. -/
theorem keeps_returned {msg : Msg n} {buf : List Char} {rd : Buffer}
    (hcontents : p.io.rd.contents = buf ++ rd.contents) (hbuf : buf.length = msg.size.toNat) :
    Keeps (p.viewIn (some (.body msg))) ((p.withRd rd).returned (msg, buf)).view :=
  keeps_frame rfl rfl hcontents hbuf

/-- The payload of a message is read, when it is there. -/
theorem body_spec {msg : Msg n} (h : Ready p (.body msg)) :
    ∃ p', p.body msg = some p' ∧ Keeps (p.viewIn (some (.body msg))) p'.view ∧ Local p' := by
  unfold body
  split_ifs with hsize herror
  · exact ⟨_, rfl, Keeps.refl _, local_poll h hsize⟩
  · exact ⟨_, rfl, keeps_stopped _, local_stop⟩
  · have hpos : msg.size.toNat ≠ 0 := fun hzero => h.body msg rfl (UInt64.toNat.inj hzero)
    obtain ⟨rd, hread, hcontents⟩ := Buffer.read_spec hpos (Nat.not_lt.mp hsize)
    refine ⟨(p.withRd rd).returned (msg, p.io.rd.contents.take msg.size.toNat), ?_, ?_, ?_⟩
    · rw [hread]
      rfl
    · apply keeps_returned
      · rw [hcontents, List.take_append_drop]
      · rw [List.length_take, Buffer.length_contents]
        omega
    · exact local_idle rfl fun halive => h.flushed halive rfl

/-- `privsep_recv`, up to where it waits. -/
theorem recv_spec (h : Ready p .recv) :
    ∃ p', p.recv = some p' ∧ Keeps (p.viewIn (some .recv)) p'.view ∧ Local p' := by
  unfold recv
  split_ifs with hsize herror
  · exact ⟨_, rfl, Keeps.refl _, local_poll h hsize⟩
  · exact ⟨_, rfl, keeps_stopped _, local_stop⟩
  · have hpos : sizeofMsg n ≠ 0 := by
      rw [sizeofMsg]
      omega
    obtain ⟨rd, hread, hcontents⟩ := Buffer.read_spec hpos (Nat.not_lt.mp hsize)
    rw [hread, Option.bind_some]
    dsimp only
    have hlen : (p.io.rd.contents.take (sizeofMsg n)).length = sizeofMsg n := by
      rw [List.length_take, Buffer.length_contents]
      omega
    -- the header is read first
    have hheader : Keeps (p.viewIn (some .recv)) ((p.withRd rd).viewIn
        (some (.body (Msg.ofImage (p.io.rd.contents.take (sizeofMsg n)))))) := by
      refine keeps_header rfl rfl ?_ hlen
      show p.io.rd.contents = _ ++ rd.contents
      rw [hcontents, List.take_append_drop]
    split_ifs with hzero
    · refine ⟨_, rfl, hheader.trans ?_, local_idle rfl fun halive => h.flushed halive rfl⟩
      refine keeps_returned (p := p.withRd rd) (List.nil_append rd.contents).symm ?_
      rw [hzero]
      rfl
    · have hready : Ready (p.withRd rd)
          (.body (Msg.ofImage (p.io.rd.contents.take (sizeofMsg n)))) :=
        ⟨fun halive _ => h.flushed halive rfl, by rintro _ ⟨⟩; exact hzero⟩
      obtain ⟨p', hbody, hkeeps, hlocal⟩ := body_spec hready
      exact ⟨p', hbody, hheader.trans hkeeps, hlocal⟩

/-- A call goes on. -/
theorem resume_spec {c : Call n} (h : Ready p c) :
    ∃ p', p.resume c = some p' ∧ Keeps (p.viewIn (some c)) p'.view ∧ Local p' := by
  cases c with
  | header buf =>
    obtain ⟨p', hheader, hview, hlocal⟩ := header_spec p buf
    exact ⟨p', hheader, hview ▸ Keeps.refl _, hlocal⟩
  | payload => exact ⟨_, rfl, payload_view p ▸ Keeps.refl _, payload_local p⟩
  | recv => exact recv_spec h
  | body msg => exact body_spec h
  | poll => exact ⟨_, rfl, Keeps.refl _, local_idle rfl fun halive => h.flushed halive rfl⟩

/-- A call fails once the process cannot write, or when it was only to poll. -/
theorem fail_spec {c : Call n} (h : Ready p c) (hdead : p.alive = false ∨ c = .poll) :
    Keeps (p.viewIn (some c)) (p.fail c).view ∧ Local (p.fail c) := by
  have hidle : c.pre = [] → (p.alive = true → c.sends = false) →
      Keeps (p.viewIn (some c)) (Party.view { p with pc := .idle }) ∧
        Local { p with pc := .idle } := by
    intro hpre hsends
    refine ⟨?_, local_idle rfl fun halive => h.flushed halive (hsends halive)⟩
    rcases hdead with hdead | rfl
    · have hview : p.viewIn (some c) = p.viewIn none := viewIn_dead hdead (by simpa using hpre)
      rw [hview]
      exact Keeps.refl _
    · exact Keeps.refl _
  have hsends : p.alive = true → c.sends = false := by
    intro halive
    rcases hdead with hdead | rfl
    · rw [halive] at hdead
      cases hdead
    · rfl
  cases c with
  | header buf => exact hidle rfl hsends
  | payload => exact hidle rfl hsends
  | recv => exact ⟨keeps_stopped _, local_stop⟩
  | body msg => exact ⟨keeps_stopped _, local_stop⟩
  | poll => exact hidle rfl hsends

/-! ## System calls -/

theorem ready_close {c : Call n} (h : Ready p c) : Ready p.close c :=
  ⟨fun halive => absurd halive (by simp [alive, close]), h.body⟩

theorem ready_fault {c : Call n} (h : Ready p c) (cause : List Char) : Ready (p.fault cause) c :=
  ⟨fun halive => absurd halive (by simp [alive, fault]), h.body⟩

/-- A call goes on with the io closed. -/
theorem close_spec {c : Call n} (h : Ready p c) :
    ∃ p', p.close.resume c = some p' ∧ Keeps (p.viewIn (some c)) p'.view ∧ Local p' := by
  obtain ⟨p', hresume, hkeeps, hlocal⟩ := resume_spec (ready_close h)
  exact ⟨p', hresume, (keeps_close _).trans hkeeps, hlocal⟩

/-- A call that fails. -/
theorem fault_spec {c : Call n} (h : Ready p c) (cause : List Char) :
    Keeps (p.viewIn (some c)) ((p.fault cause).fail c).view ∧ Local ((p.fault cause).fail c) := by
  obtain ⟨hkeeps, hlocal⟩ := fail_spec (ready_fault h cause) (.inl (by simp [alive, fault]))
  exact ⟨(keeps_fault cause _).trans hkeeps, hlocal⟩

/-- `poll` returns. -/
theorem polled_spec {p' : Party n} {c : Call n} {a : Polling} (hlocal : Local p)
    (hpc : p.pc = .poll c) (h : p.polled c a = some p') : Keeps p.view p'.view ∧ Local p' := by
  have hready : Ready p c := hlocal.ready c (by rw [hpc]; rfl)
  rw [view_of_call (c := c) (by rw [hpc]; rfl)]
  unfold polled at h
  split_ifs at h with hdead
  · obtain rfl := Option.some.inj h
    exact fail_spec hready (.inl (by
      rw [Bool.eq_false_iff, ne_eq, alive_iff]
      rintro ⟨herror, hclosed⟩
      rw [herror, hclosed] at hdead
      cases hdead))
  · have halive : p.alive = true := by
      rw [Bool.or_eq_true, not_or, Bool.not_eq_true, Option.isSome_eq_false_iff,
        Option.isNone_iff_eq_none, Bool.not_eq_true] at hdead
      exact alive_iff.mpr hdead
    cases a with
    | interrupted =>
      obtain ⟨p'', hresume, hspec⟩ := resume_spec hready
      obtain rfl := Option.some.inj (hresume.symm.trans h)
      exact hspec
    | timedOut =>
      cases c with
      | poll =>
        obtain rfl := Option.some.inj h
        exact fail_spec hready (.inr rfl)
      | _ => cases h
    | ready r =>
      dsimp only at h
      split_ifs at h with hhup hout hin
      · obtain ⟨p'', hresume, hspec⟩ := close_spec hready
        obtain rfl := Option.some.inj (hresume.symm.trans h)
        exact hspec
      · obtain rfl := Option.some.inj h
        refine ⟨Keeps.refl _, fun _ _ _ => halive, nofun, ?_, nofun⟩
        rintro _ ⟨⟩
        exact ⟨hready.flushed, hready.body⟩
      · obtain rfl := Option.some.inj h
        exact ⟨Keeps.refl _, local_fill hready⟩
      · obtain ⟨p'', hresume, hspec⟩ := resume_spec hready
        obtain rfl := Option.some.inj (hresume.symm.trans h)
        exact hspec

/-- A call goes on behind what was written. -/
theorem pushed_spec {c : Call n} (h : Ready p c) (pollin : Bool) :
    ∃ p', p.pushed c pollin = some p' ∧ Keeps (p.viewIn (some c)) p'.view ∧ Local p' := by
  unfold pushed
  split_ifs
  · exact ⟨_, rfl, Keeps.refl _, local_fill h⟩
  · exact resume_spec h

/-- Writing fails, or would block. -/
theorem notWritten_spec {p' : Party n} {c : Call n} {pollin : Bool} {w : Command.Written}
    (hlocal : Local p) (hpc : p.pc = .push c pollin) (h : p.notWritten c pollin w = some p') :
    Keeps p.view p'.view ∧ Local p' := by
  have hready : Ready p c := hlocal.ready c (by rw [hpc]; rfl)
  rw [view_of_call (c := c) (by rw [hpc]; rfl)]
  have hclose : p.close.resume c = some p' → Keeps (p.viewIn (some c)) p'.view ∧ Local p' := by
    intro h
    obtain ⟨p'', hresume, hspec⟩ := close_spec hready
    obtain rfl := Option.some.inj (hresume.symm.trans h)
    exact hspec
  match w with
  | .wrote 0 => exact hclose h
  | .wrote (k + 1) => cases h
  | .pipe => exact hclose h
  | .again =>
    obtain ⟨p'', hpushed, hspec⟩ := pushed_spec hready pollin
    obtain rfl := Option.some.inj (hpushed.symm.trans h)
    exact hspec
  | .failure cause =>
    obtain rfl := Option.some.inj h
    exact fault_spec hready _

/-- Reading gives bytes of the socket, or its end. -/
theorem filled_spec {p' : Party n} {c : Call n} {g : Got} (hlocal : Local p)
    (hpc : p.pc = .fill c) (h : p.filled c g = some p') :
    Keeps p.view p'.view ∧ Local p' ∧ g.moved + p'.view.queue.length ≤ p.view.queue.length := by
  have hready : Ready p c := hlocal.ready c (by rw [hpc]; rfl)
  rw [view_of_call (c := c) (by rw [hpc]; rfl)]
  obtain ⟨rd, hensure, hcontents, hfree⟩ :=
    Buffer.ensure_spec p.io.rd (n := ioWatermark) (by decide)
  rw [filled, hensure, Option.bind_some] at h
  have hview : (p.withRd rd).viewIn (some c) = p.viewIn (some c) := by
    simp only [viewIn, withRd, hcontents]
    rfl
  have hready' : Ready (p.withRd rd) c := ⟨hready.flushed, hready.body⟩
  rw [← hview]
  have hquiet : g.moved = 0 → Keeps ((p.withRd rd).viewIn (some c)) p'.view ∧ Local p' →
      Keeps ((p.withRd rd).viewIn (some c)) p'.view ∧ Local p' ∧
        g.moved + p'.view.queue.length ≤ ((p.withRd rd).viewIn (some c)).queue.length := by
    rintro hzero ⟨hkeeps, hlocal⟩
    have hqueue := hkeeps.queue
    exact ⟨hkeeps, hlocal, by omega⟩
  cases g with
  | bytes k =>
    dsimp only at h
    split_ifs at h with hk
    obtain ⟨hpos, hkfree, hkqueue⟩ := hk
    have hne : p.queue.take k ≠ [] := by
      rw [← List.length_pos_iff, List.length_take]
      omega
    obtain ⟨rd', hadd, hcontents'⟩ := Buffer.add_spec (b := rd) hne
      (by rw [List.length_take]; omega)
    rw [hadd] at h
    obtain rfl := Option.some.inj h
    have heq : Party.view { p.withRd rd' with queue := p.queue.drop k, pc := .fill c } =
        { (p.withRd rd).viewIn (some c) with
          inp := rd.contents ++ p.queue.take k, queue := p.queue.drop k } := by
      rw [← hcontents']
      rfl
    rw [heq]
    refine ⟨keeps_read (List.take_append_drop k p.queue).symm, local_fill
      (p := { p.withRd rd' with queue := p.queue.drop k }) ⟨hready.flushed, hready.body⟩, ?_⟩
    have hlen : k + (p.queue.drop k).length = p.queue.length := by
      rw [List.length_drop]
      omega
    have hqueue : ((p.withRd rd).viewIn (some c)).queue = p.queue := rfl
    rw [hqueue]
    exact hlen.le
  | again =>
    obtain ⟨p'', hresume, hspec⟩ := resume_spec hready'
    obtain rfl := Option.some.inj (hresume.symm.trans h)
    exact hquiet rfl hspec
  | eof =>
    dsimp only at h
    split_ifs at h
    obtain ⟨p'', hresume, hspec⟩ := close_spec hready'
    obtain rfl := Option.some.inj (hresume.symm.trans h)
    exact hquiet rfl hspec
  | failure cause =>
    obtain rfl := Option.some.inj h
    exact hquiet rfl (fault_spec hready' _)

/-! ## New calls -/

/-- `privsep_send` puts a frame behind what is to be written. -/
theorem send_spec {f : Frame n} (hpc : p.pc = .idle) :
    ∃ p', p.send f = some p' ∧
      p'.view = { p.view with sent := p.sent ++ [f], out := p.view.out.map (· ++ f.wire) } ∧
      Local p' := by
  have hne : f.1.image ≠ [] := by
    rw [← List.length_pos_iff, Msg.length_image, sizeofMsg]
    omega
  obtain ⟨wr, hwrite, hcontents⟩ := ioWrite_spec { p with sent := p.sent ++ [f] } hne
  obtain ⟨p', hheader, hview, hlocal⟩ :=
    header_spec { p with sent := p.sent ++ [f], wr := wr } f.2
  refine ⟨p', ?_, ?_, hlocal⟩
  · rw [send, hwrite]
    exact hheader
  · rw [hview, view_of_idle hpc]
    cases halive : p.alive with
    | true =>
      have halive' : ({ p with sent := p.sent ++ [f], wr := wr } : Party n).alive = true := halive
      simp only [viewIn, halive, halive', if_true, hcontents halive, Option.map_some]
      simp [Call.pending, Call.pre, Frame.wire]
    | false =>
      have halive' : ({ p with sent := p.sent ++ [f], wr := wr } : Party n).alive = false := halive
      simp only [viewIn, halive, halive', Bool.false_eq_true, if_false]
      rfl

/-- A side begins to receive. -/
theorem recv_idle {p' : Party n} (hlocal : Local p) (hpc : p.pc = .idle) (h : p.recv = some p') :
    Keeps p.view p'.view ∧ Local p' := by
  obtain ⟨p'', hrecv, hspec⟩ :=
    recv_spec (p := p) ⟨fun halive _ => hlocal.idle halive hpc, nofun⟩
  obtain rfl := Option.some.inj (hrecv.symm.trans h)
  rw [view_of_idle hpc, ← viewIn_none (c := .recv) rfl rfl]
  exact hspec

theorem poll_idle (hlocal : Local p) (hpc : p.pc = .idle) :
    Keeps p.view (view { p with pc := .poll .poll }) ∧ Local { p with pc := .poll .poll } := by
  refine ⟨?_, local_poll ⟨fun halive _ => hlocal.idle halive hpc, nofun⟩ trivial⟩
  rw [view_of_idle hpc]
  exact Keeps.refl _

/-- A side ends. -/
theorem exit_spec (h : p.pc ≠ .stopped) : Keeps p.view p.stop.view ∧ Local p.stop := by
  refine ⟨?_, local_stop⟩
  cases hpc : p.pc with
  | idle => exact view_of_idle hpc ▸ keeps_stopped _
  | poll c => exact view_of_call (c := c) (by rw [hpc]; rfl) ▸ keeps_stopped _
  | push c pollin => exact view_of_call (c := c) (by rw [hpc]; rfl) ▸ keeps_stopped _
  | fill c => exact view_of_call (c := c) (by rw [hpc]; rfl) ▸ keeps_stopped _
  | stopped => exact absurd hpc h

end Party

end Privsep

end Fdm
