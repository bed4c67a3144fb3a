import Fdm.Deliver.Imap
import Fdm.Io.Readline

/-!
# Waiting for the answer to `APPEND`

`deliver_imap_waitappend` over the descriptor. It polls in front of every line that it reads, and
one poll may bring several lines.

* `waitappend_eq`: what it returns, over the lines that each poll completes;
* `independent_iff`: when that depends on the lines alone and no line in the buffer is waited for.
-/

namespace Fdm.Deliver.Imap

open Lib.Intake Fdm.Io

/-! ## The code -/

/-- The variable of the caller: as it was before the call, `NULL`, or a line of the server. -/
inductive Handed
  | kept
  | null
  | line (s : List Char)
deriving DecidableEq, Repr

/-- What the call returns, the line it leaves to its caller, and whether it has polled while there
was a line in the read buffer. -/
structure Waited where
  answer : Answer
  line : Handed
  stalled : Bool
deriving DecidableEq, Repr

/-- `io_readline2` would find a line. -/
def hasLine (io : Io) : Bool :=
  match io.readline2 with
  | some (some _, _) => true
  | _ => false

/-- `deliver_imap_poll`, when `ready` can be read: whether it succeeds. -/
def deliverImapPoll (io : Io) (ready : List Char) (behind : Behind) : Option (Bool × Io) :=
  if io.closed then some (false, io)
  else (io.poll ready behind).map fun io => (io.error.isNone, io)

/-- `deliver_imap_waitappend`, with what each poll finds; after these the next one times out. -/
def deliverImapWaitappend (tag : ℕ) :
    Io → Handed → Bool → List (List Char × Behind) → Option Waited
  | io, line, stalled, [] => some ⟨.error, line, stalled || hasLine io⟩
  | io, line, stalled, (ready, behind) :: polls =>
    (deliverImapPoll io ready behind).bind fun
      -- `line = NULL` sets the argument, and not the variable of the caller
      | (false, _) => some ⟨.error, line, stalled || hasLine io⟩
      | (true, io') =>
        io'.readline2.bind fun
          | (none, io') => deliverImapWaitappend tag io' .null (stalled || hasLine io) polls
          | (some s, io') =>
            if waitappend tag s = .ignored then
              deliverImapWaitappend tag io' (.line s) (stalled || hasLine io) polls
            else some ⟨waitappend tag s, .line s, stalled || hasLine io⟩

/-- A stream in `chunks`; `last` is what comes with the end of the stream, if it ends. -/
def polls (chunks : List (List Char)) (last : Option (List Char)) : List (List Char × Behind) :=
  chunks.map (·, .nothing) ++ (last.map (·, .eof)).toList

/-! ## Lines -/

/-- The lines in what the server sends. -/
def crlf : Cutter Char (List Char) := cutter ioCrlf (Or.inr rfl)

/-- The lines of a stream that has ended. -/
def closing (s : List Char) : List (List Char) :=
  (crlf.items s).1 ++ lastPiece ioCrlf (crlf.items s).2

/-- The lines that each poll completes, when `rest` is in the buffer behind the lines there. -/
def arrivals (rest : List Char) (chunks : List (List Char)) (last : Option (List Char)) :
    List (List (List Char)) :=
  crlf.batches rest chunks ++
    (last.map fun s => closing ((crlf.items (rest ++ chunks.flatten)).2 ++ s)).toList

/-- All lines, whatever the chunks. -/
def serverLines (s : List Char) (last : Option (List Char)) : List (List Char) :=
  match last with
  | none => (crlf.items s).1
  | some t => closing (s ++ t)

/-- The line that answers. -/
def cause (tag : ℕ) (lines : List (List Char)) : Option (List Char) :=
  lines.find? fun l => waitappend tag l ≠ .ignored

/-- What there is to return, for the lines of the server. -/
def answerTo (tag : ℕ) (lines : List (List Char)) : Answer :=
  (cause tag lines).elim .error (waitappend tag)

/-- The call returns what the lines of the server say, it has not polled with a line in the buffer,
and with `IMAP_TAG_ERROR` it leaves the line that is wrong or none. -/
def Right (tag : ℕ) (lines : List (List Char)) (r : Waited) : Prop :=
  r.answer = answerTo tag lines ∧ r.stalled = false ∧
    (r.answer = .error →
      r.line = .null ∨ ∃ l, cause tag lines = some l ∧ r.line = .line l)

/-- The outcome of the call depends on the lines alone. -/
def Independent (tag : ℕ) (io : Io) (chunks : List (List Char)) (last : Option (List Char)) :
    Prop :=
  ∃ r, deliverImapWaitappend tag io .kept false (polls chunks last) = some r ∧
    Right tag (serverLines (io.rd.contents ++ chunks.flatten) last) r

/-- At most one line, which is ignored. -/
def Calm (tag : ℕ) (batch : List (List Char)) : Prop :=
  batch = [] ∨ ∃ l, batch = [l] ∧ waitappend tag l = .ignored

/-- The polls are calm up to one whose first line answers; or all are, and the last one completes
no line. -/
def Paced (tag : ℕ) (batches : List (List (List Char))) : Prop :=
  (∃ before l batch after, batches = before ++ (l :: batch) :: after ∧
    (∀ b ∈ before, Calm tag b) ∧ waitappend tag l ≠ .ignored) ∨
    ∃ before, batches = before ++ [[]] ∧ ∀ b ∈ before, Calm tag b

/-- The lines in the buffer of an io, as `io_readline2` gives them. -/
def pending (io : Io) : List (List Char) :=
  (crlf.items io.rd.contents).1 ++
    if io.closed then lastPiece ioCrlf (crlf.items io.rd.contents).2 else []

/-- `deliver_imap_waitappend` over the lines that each poll completes; `queue` are those in the
buffer. -/
def waitLines (tag : ℕ) :
    List (List Char) → Handed → Bool → List (List (List Char)) → Waited
  | queue, line, stalled, [] => ⟨.error, line, stalled || !queue.isEmpty⟩
  | queue, _, stalled, batch :: batches =>
    match queue ++ batch with
    | [] => waitLines tag [] .null (stalled || !queue.isEmpty) batches
    | s :: rest =>
      if waitappend tag s = .ignored then
        waitLines tag rest (.line s) (stalled || !queue.isEmpty) batches
      else ⟨waitappend tag s, .line s, stalled || !queue.isEmpty⟩

/-! ## Reading a line -/

variable {tag : ℕ} {io io' : Io} {line : Handed} {stalled : Bool}

theorem cutter_crlf {eol : List Char} (heol : eol = ioCrlf) : cutter eol (Or.inr heol) = crlf := by
  subst heol
  rfl

theorem pending_of_open (hopen : io.closed = false) :
    pending io = (crlf.items io.rd.contents).1 := by
  rw [pending, hopen]
  exact List.append_nil _

/-- `io_readline2` gives the first line there is. -/
theorem readline2_cons (heol : io.eol = ioCrlf) (herror : io.error = none) {s : List Char}
    {lines : List (List Char)} (h : pending io = s :: lines) :
    ∃ io', io.readline2 = some (some s, io') ∧ Same io io' ∧ io'.error = none ∧
      pending io' = lines ∧ (io.closed = false →
        (crlf.items io'.rd.contents).2 = (crlf.items io.rd.contents).2) := by
  have hcutter := cutter_crlf heol
  cases hcut : crlf.cut io.rd.contents with
  | some q =>
    obtain ⟨l, rest⟩ := q
    obtain ⟨io', hread, hsame, herror', hrest⟩ :=
      readline2_line (Or.inr heol) herror (by rw [hcutter, hcut])
    rw [pending, Cutter.items_some hcut, List.cons_append, List.cons.injEq] at h
    refine ⟨io', h.1 ▸ hread, hsame, herror', ?_, ?_⟩
    · rw [pending, hrest, hsame.closed]
      exact h.2
    · intro _
      rw [hrest, Cutter.items_some hcut]
  | none =>
    rw [pending, Cutter.items_none hcut, List.nil_append] at h
    have hclosed : io.closed = true := by
      cases hc : io.closed with
      | true => rfl
      | false => simp [hc] at h
    rw [if_pos hclosed, lastPiece] at h
    split_ifs at h with hpiece
    rw [List.cons.injEq] at h
    rw [not_or, Buffer.length_contents] at hpiece
    obtain ⟨io', hread, hsame, herror', hrest⟩ :=
      readline2_last (Or.inr heol) herror (by rw [hcutter, hcut]) (by omega) hclosed
        (by rw [heol]; omega)
    have hitems : crlf.items [] = ([], []) := rfl
    refine ⟨io', h.1 ▸ hread, hsame, herror', ?_, fun hopen => absurd hopen (by simp [hclosed])⟩
    rw [pending, hrest, hitems, hsame.closed, hclosed, ← h.2]
    rfl

/-- Where there is no line, nothing is read, but for the error of one that is too long. -/
theorem readline2_nil (heol : io.eol = ioCrlf) (herror : io.error = none) (h : pending io = []) :
    ∃ io', io.readline2 = some (none, io') ∧
      (io' = io ∨ io'.error.isSome = true ∧ ioMaxlinelen ≤ io.rd.contents.length) := by
  have hcutter := cutter_crlf heol
  rw [pending, List.append_eq_nil_iff] at h
  have hcut : crlf.cut io.rd.contents = none := by
    cases hcut : crlf.cut io.rd.contents with
    | none => rfl
    | some q =>
      rw [Cutter.items_some hcut] at h
      exact absurd h.1 (List.cons_ne_nil _ _)
  rw [Cutter.items_none hcut] at h
  by_cases hmax : ioMaxlinelen ≤ io.rd.contents.length
  · have hsize : ioMaxlinelen ≤ io.rd.size := by rwa [Buffer.length_contents] at hmax
    exact ⟨_, readline2_over (Or.inr heol) herror (by rw [hcutter, hcut]) hsize, Or.inr ⟨rfl, hmax⟩⟩
  · refine ⟨io, readline2_wait (Or.inr heol) herror (by rw [hcutter, hcut])
      (by rw [Buffer.length_contents] at hmax; omega) ?_, Or.inl rfl⟩
    cases hclosed : io.closed with
    | false => exact Or.inl rfl
    | true =>
      rw [if_pos hclosed, lastPiece] at h
      have hpiece : ioMaxlinelen ≤ io.rd.contents.length ∨
          io.rd.contents.length < ioCrlf.length := by
        by_contra hpiece
        rw [if_neg hpiece] at h
        exact List.cons_ne_nil _ _ h.2
      rw [Buffer.length_contents] at hpiece hmax
      rw [heol]
      exact Or.inr (by omega)

theorem hasLine_eq (heol : io.eol = ioCrlf) (herror : io.error = none) :
    hasLine io = !(pending io).isEmpty := by
  cases h : pending io with
  | nil =>
    obtain ⟨io', hread, -⟩ := readline2_nil heol herror h
    rw [hasLine, hread]
    rfl
  | cons s lines =>
    obtain ⟨io', hread, -⟩ := readline2_cons heol herror h
    rw [hasLine, hread]
    rfl

theorem hasLine_error (herror : io.error.isSome = true) : hasLine io = false := by
  rw [hasLine, readline2_error herror]

/-! ## The lines of the polls -/

theorem flatten_arrivals {rest : List Char} (hcut : crlf.cut rest = none)
    (chunks : List (List Char)) (last : Option (List Char)) :
    (arrivals rest chunks last).flatten = serverLines (rest ++ chunks.flatten) last := by
  rw [arrivals, List.flatten_append, Cutter.flatten_batches hcut]
  cases last with
  | none => simp [serverLines]
  | some t =>
    have hitems := crlf.items_append (rest ++ chunks.flatten) t
    simp only [Option.map_some, Option.toList_some, List.flatten_singleton, serverLines, closing]
    rw [hitems, List.append_assoc]

/-- Behind a line that is too long no line is completed. -/
theorem arrivals_stuck {rest : List Char} (hcut : crlf.cut rest = none)
    (hmax : ioMaxlinelen ≤ rest.length) (chunks : List (List Char)) (last : Option (List Char)) :
    ∀ b ∈ arrivals rest chunks last, b = [] := by
  have hstuck : ∀ t, crlf.items (rest ++ t) = ([], rest ++ t) := by
    intro t
    refine Cutter.items_none ?_
    show (terminated ioCrlf (Eol.plain (Or.inr rfl)).ne_nil ioMaxlinelen).cut (rest ++ t) = none
    exact cut_terminated_stuck hcut hmax t
  have hbatches : ∀ chunks rest', rest <+: rest' → ∀ b ∈ crlf.batches rest' chunks, b = [] := by
    intro chunks
    induction chunks with
    | nil => simp
    | cons c cs ih =>
      rintro rest' ⟨t, rfl⟩ b hb
      rw [Cutter.batches_cons, List.append_assoc, hstuck] at hb
      rcases List.mem_cons.mp hb with rfl | hb
      · rfl
      · exact ih _ (List.prefix_append _ _) b hb
  intro b hb
  rw [arrivals, hstuck, List.mem_append] at hb
  rcases hb with hb | hb
  · exact hbatches chunks rest (List.prefix_refl _) b hb
  · cases last with
    | none => cases hb
    | some t =>
      rw [Option.map_some, Option.toList_some, List.mem_singleton, closing, List.append_assoc,
        hstuck, lastPiece, if_pos (Or.inl (by rw [List.length_append]; omega))] at hb
      exact hb

theorem waitLines_quiet {batches : List (List (List Char))} (h : ∀ b ∈ batches, b = []) :
    waitLines tag [] .null stalled batches = ⟨.error, .null, stalled⟩ := by
  induction batches generalizing stalled with
  | nil => simp [waitLines]
  | cons b batches ih =>
    obtain rfl : b = [] := h b List.mem_cons_self
    have hrest := @ih stalled fun c hc => h c (List.mem_cons_of_mem _ hc)
    simpa [waitLines] using hrest

/-! ## The loop -/

/-- Once the connection has failed. -/
theorem waitappend_failed (herror : io.error.isSome = true) (ps : List (List Char × Behind)) :
    deliverImapWaitappend tag io line stalled ps = some ⟨.error, line, stalled⟩ := by
  have hline := hasLine_error herror
  cases ps with
  | nil => simp [deliverImapWaitappend, hline]
  | cons p ps =>
    obtain ⟨ready, behind⟩ := p
    have hpoll : ∃ io', deliverImapPoll io ready behind = some (false, io') := by
      rw [deliverImapPoll]
      split_ifs
      · exact ⟨io, rfl⟩
      · refine ⟨io, ?_⟩
        rw [poll_error herror, Option.map_some, Option.isNone_eq_false_iff.mpr herror]
    obtain ⟨io', hpoll⟩ := hpoll
    simp [deliverImapWaitappend, hpoll, hline]

theorem waitappend_none {ready : List Char} {behind : Behind} {io'' : Io}
    (hpoll : deliverImapPoll io ready behind = some (true, io'))
    (hread : io'.readline2 = some (none, io'')) (ps : List (List Char × Behind)) :
    deliverImapWaitappend tag io line stalled ((ready, behind) :: ps) =
      deliverImapWaitappend tag io'' .null (stalled || hasLine io) ps := by
  rw [deliverImapWaitappend, hpoll, Option.bind_some]
  show (io'.readline2.bind _) = _
  rw [hread]
  rfl

theorem waitappend_some {ready : List Char} {behind : Behind} {io'' : Io} {s : List Char}
    (hpoll : deliverImapPoll io ready behind = some (true, io'))
    (hread : io'.readline2 = some (some s, io'')) (ps : List (List Char × Behind)) :
    deliverImapWaitappend tag io line stalled ((ready, behind) :: ps) =
      if waitappend tag s = .ignored then
        deliverImapWaitappend tag io'' (.line s) (stalled || hasLine io) ps
      else some ⟨waitappend tag s, .line s, stalled || hasLine io⟩ := by
  rw [deliverImapWaitappend, hpoll, Option.bind_some]
  show (io'.readline2.bind _) = _
  rw [hread]
  rfl

/-- `deliver_imap_waitappend` takes one line for each poll. -/
theorem waitappend_eq (heol : io.eol = ioCrlf) (herror : io.error = none)
    (hopen : io.closed = false) (chunks : List (List Char)) (last : Option (List Char)) :
    deliverImapWaitappend tag io line stalled (polls chunks last) =
      some (waitLines tag (pending io) line stalled
        (arrivals (crlf.items io.rd.contents).2 chunks last)) := by
  induction chunks generalizing io line stalled with
  | nil =>
    have hqueue := pending_of_open hopen
    cases last with
    | none =>
      show some _ = some (waitLines tag (pending io) line stalled [])
      rw [hasLine_eq heol herror, waitLines]
    | some t =>
      obtain ⟨io', hpoll, heol', hclosed', herror', hcontents⟩ := poll_eof_spec herror hopen t
      have hpoll' : deliverImapPoll io t .eof = some (true, io') := by
        rw [deliverImapPoll, hopen, if_neg Bool.false_ne_true, hpoll, Option.map_some, herror']
        rfl
      have hpending : pending io' =
          pending io ++ closing ((crlf.items io.rd.contents).2 ++ t) := by
        rw [hqueue, pending, if_pos hclosed', hcontents, closing, crlf.items_append,
          List.append_assoc]
      have harrivals : arrivals (crlf.items io.rd.contents).2 [] (some t) =
          [closing ((crlf.items io.rd.contents).2 ++ t)] := by
        simp [arrivals, Cutter.items_none (crlf.cut_items io.rd.contents)]
      have heol'' := heol'.trans heol
      rw [harrivals, waitLines, ← hpending, ← hasLine_eq heol herror]
      cases h : pending io' with
      | nil =>
        obtain ⟨io'', hread, hio⟩ := readline2_nil heol'' herror' h
        have hline : hasLine io'' = false := by
          rcases hio with rfl | ⟨hfailed, -⟩
          · rw [hasLine_eq heol'' herror', h]
            rfl
          · exact hasLine_error hfailed
        show deliverImapWaitappend tag io line stalled [(t, .eof)] = _
        rw [waitappend_none hpoll' hread]
        simp [deliverImapWaitappend, waitLines, hline]
      | cons s lines =>
        obtain ⟨io'', hread, hsame, herror'', hlines, -⟩ := readline2_cons heol'' herror' h
        have hline : hasLine io'' = !lines.isEmpty := by
          rw [hasLine_eq (hsame.eol.trans heol'') herror'', hlines]
        show deliverImapWaitappend tag io line stalled [(t, .eof)] = _
        rw [waitappend_some hpoll' hread]
        simp only [deliverImapWaitappend, waitLines, hline]
        split_ifs <;> rfl
  | cons c cs ih =>
    have hqueue := pending_of_open hopen
    obtain ⟨io', hpoll, hsame, herror', hcontents⟩ := poll_spec herror hopen c
    have hopen' := hsame.closed.trans hopen
    have hpoll' : deliverImapPoll io c .nothing = some (true, io') := by
      rw [deliverImapPoll, hopen, if_neg Bool.false_ne_true, hpoll, Option.map_some, herror']
      rfl
    have hitems := crlf.items_append io.rd.contents c
    rw [← hcontents] at hitems
    have hpending : pending io' =
        pending io ++ (crlf.items ((crlf.items io.rd.contents).2 ++ c)).1 := by
      rw [hqueue, pending_of_open hopen', hitems]
    have harrivals : arrivals (crlf.items io.rd.contents).2 (c :: cs) last =
        (crlf.items ((crlf.items io.rd.contents).2 ++ c)).1 ::
          arrivals (crlf.items io'.rd.contents).2 cs last := by
      have hrest : (crlf.items ((crlf.items io.rd.contents).2 ++ (c :: cs).flatten)).2 =
          (crlf.items ((crlf.items io'.rd.contents).2 ++ cs.flatten)).2 := by
        rw [List.flatten_cons, ← List.append_assoc, crlf.items_append _ cs.flatten, hitems]
      rw [arrivals, arrivals, hrest, Cutter.batches_cons, hitems]
      rfl
    have heol' := hsame.eol.trans heol
    rw [harrivals, waitLines, ← hpending, ← hasLine_eq heol herror]
    show deliverImapWaitappend tag io line stalled ((c, .nothing) :: polls cs last) = _
    cases h : pending io' with
    | nil =>
      obtain ⟨io'', hread, hio⟩ := readline2_nil heol' herror' h
      rw [waitappend_none hpoll' hread]
      rcases hio with rfl | ⟨hfailed, hmax⟩
      · rw [ih heol' herror' hopen', h]
      · -- no more lines come behind one that is too long
        have hnone : crlf.items io'.rd.contents = ([], io'.rd.contents) := by
          rw [pending_of_open hopen'] at h
          cases hcut : crlf.cut io'.rd.contents with
          | none => exact Cutter.items_none hcut
          | some q =>
            rw [Cutter.items_some hcut] at h
            exact absurd h (List.cons_ne_nil _ _)
        have hcut : crlf.cut io'.rd.contents = none := by
          have := crlf.cut_items io'.rd.contents
          rwa [hnone] at this
        rw [waitappend_failed hfailed, waitLines_quiet]
        rw [hnone]
        exact arrivals_stuck hcut hmax cs last
    | cons s lines =>
      obtain ⟨io'', hread, hsame', herror'', hlines, hrest⟩ := readline2_cons heol' herror' h
      have hih := @ih io'' (.line s) (stalled || hasLine io) (hsame'.eol.trans heol') herror''
        (hsame'.closed.trans hopen')
      rw [hlines, hrest hopen'] at hih
      rw [waitappend_some hpoll' hread, hih]
      simp only
      split_ifs <;> rfl

/-! ## When the outcome is right -/

variable {batches : List (List (List Char))} {l : List Char}

theorem Calm.not_answer {batch : List (List Char)} (h : Calm tag (l :: batch)) :
    waitappend tag l = .ignored := by
  rcases h with h | ⟨x, h, hx⟩
  · cases h
  · cases h
    exact hx

/-- Behind a calm poll. -/
theorem paced_cons {b : List (List Char)} (h : Calm tag b) :
    Paced tag (b :: batches) ↔ Paced tag batches ∨ b = [] ∧ batches = [] := by
  constructor
  · rintro (⟨before, l, batch, after, heq, hbefore, hl⟩ | ⟨before, heq, hbefore⟩)
    · cases before with
      | nil =>
        cases heq
        exact absurd h.not_answer hl
      | cons c before =>
        cases heq
        exact Or.inl (Or.inl ⟨before, l, batch, after, rfl,
          fun x hx => hbefore x (List.mem_cons_of_mem _ hx), hl⟩)
    · cases before with
      | nil =>
        cases heq
        exact Or.inr ⟨rfl, rfl⟩
      | cons c before =>
        cases heq
        exact Or.inl (Or.inr ⟨before, rfl, fun x hx => hbefore x (List.mem_cons_of_mem _ hx)⟩)
  · have hcons : ∀ before : List (List (List Char)), (∀ x ∈ before, Calm tag x) →
        ∀ x ∈ b :: before, Calm tag x := by
      intro before hbefore x hx
      rcases List.mem_cons.mp hx with rfl | hx
      · exact h
      · exact hbefore x hx
    rintro ((⟨before, l, batch, after, rfl, hbefore, hl⟩ | ⟨before, rfl, hbefore⟩) | ⟨rfl, rfl⟩)
    · exact Or.inl ⟨b :: before, l, batch, after, rfl, hcons before hbefore, hl⟩
    · exact Or.inr ⟨b :: before, rfl, hcons before hbefore⟩
    · exact Or.inr ⟨[], rfl, fun x hx => absurd hx List.not_mem_nil⟩

/-- Two lines at once, of which the first one is ignored. -/
theorem not_paced {x : List Char} {b : List (List Char)} (hl : waitappend tag l = .ignored) :
    ¬ Paced tag ((l :: x :: b) :: batches) := by
  have hcalm : ¬ Calm tag (l :: x :: b) := by
    rintro (h | ⟨y, h, -⟩) <;> cases h
  rintro (⟨before, y, batch, after, heq, hbefore, hy⟩ | ⟨before, heq, hbefore⟩)
  · cases before with
    | nil =>
      cases heq
      exact hy hl
    | cons c before =>
      cases heq
      exact hcalm (hbefore _ List.mem_cons_self)
  · cases before with
    | nil => cases heq
    | cons c before =>
      cases heq
      exact hcalm (hbefore _ List.mem_cons_self)

/-- It does not recover from polling with a line in the buffer. -/
theorem stalled_waitLines (queue : List (List Char)) (line : Handed) :
    (waitLines tag queue line true batches).stalled = true := by
  induction batches generalizing queue line with
  | nil => rfl
  | cons b batches ih =>
    rw [waitLines]
    split
    · exact ih [] .null
    · next s rest _ =>
      split_ifs
      · exact ih rest (.line s)
      · rfl

theorem stalled_of_queue {s : List Char} (queue : List (List Char)) (line : Handed) :
    (waitLines tag (s :: queue) line false batches).stalled = true := by
  cases batches with
  | nil => rfl
  | cons b batches =>
    rw [waitLines, List.cons_append]
    show Waited.stalled (if _ then _ else _) = true
    split_ifs
    · exact stalled_waitLines _ _
    · rfl

/-- A line that is ignored changes nothing. -/
theorem right_ignored {lines : List (List Char)} {r : Waited} (hl : waitappend tag l = .ignored) :
    Right tag (l :: lines) r ↔ Right tag lines r := by
  have hcause : cause tag (l :: lines) = cause tag lines := by
    rw [cause, cause, List.find?_cons_of_neg (by simp [hl])]
  rw [Right, Right, answerTo, answerTo, hcause]

/-- From an empty buffer the outcome is right just when the polls are paced; without any poll, when
there was no line before. -/
theorem right_waitLines (line : Handed) :
    Right tag batches.flatten (waitLines tag [] line false batches) ↔
      Paced tag batches ∨ batches = [] ∧ line = .null := by
  induction batches generalizing line with
  | nil =>
    have hpaced : ¬ Paced tag [] := by
      rintro (⟨before, l, batch, after, heq, -⟩ | ⟨before, heq, -⟩) <;> cases before <;> cases heq
    simp [Right, waitLines, answerTo, cause, hpaced]
  | cons b batches ih =>
    have hne : ¬ (b :: batches = [] ∧ line = .null) := fun h => List.cons_ne_nil _ _ h.1
    rw [or_iff_left hne]
    cases b with
    | nil =>
      rw [paced_cons (Or.inl rfl), List.flatten_cons, List.nil_append]
      simpa [waitLines] using ih .null
    | cons s b =>
      rw [List.flatten_cons, List.cons_append]
      have hstep : waitLines tag [] line false ((s :: b) :: batches) =
          if waitappend tag s = .ignored then waitLines tag b (.line s) false batches
          else ⟨waitappend tag s, .line s, false⟩ := rfl
      rw [hstep]
      by_cases hs : waitappend tag s = .ignored
      · rw [if_pos hs, right_ignored hs]
        cases b with
        | nil =>
          rw [List.nil_append, ih (.line s), paced_cons (Or.inr ⟨s, rfl, hs⟩)]
          simp
        | cons x b =>
          have hstalled := @stalled_of_queue tag batches x b (.line s)
          refine iff_of_false (fun h => ?_) (not_paced hs)
          rw [h.2.1] at hstalled
          exact Bool.false_ne_true hstalled
      · rw [if_neg hs]
        have hcause : cause tag (s :: (b ++ batches.flatten)) = some s :=
          List.find?_cons_of_pos (by simp [hs])
        have hright : Right tag (s :: (b ++ batches.flatten)) ⟨waitappend tag s, .line s, false⟩ := by
          refine ⟨?_, rfl, fun _ => Or.inr ⟨s, hcause, rfl⟩⟩
          rw [answerTo, hcause]
          rfl
        refine iff_of_true hright (Or.inl ⟨[], s, b, batches, rfl, ?_, hs⟩)
        exact fun x hx => absurd hx List.not_mem_nil

/-- With a connection that has failed or is closed, the line of the caller is left as it was. -/
theorem waitappend_lost (h : io.error.isSome = true ∨ io.closed = true)
    (ps : List (List Char × Behind)) :
    ∃ st, deliverImapWaitappend tag io line stalled ps = some ⟨.error, line, st⟩ := by
  rcases h with h | h
  · exact ⟨stalled, waitappend_failed h ps⟩
  · cases ps with
    | nil => exact ⟨_, rfl⟩
    | cons p ps =>
      refine ⟨stalled || hasLine io, ?_⟩
      simp [deliverImapWaitappend, deliverImapPoll, h]

/-- What `deliver_imap_waitappend` returns is independent of the reads just when the connection is
up, no line is left in the buffer, and the reads are paced. -/
theorem independent_iff (heol : io.eol = ioCrlf) (chunks : List (List Char))
    (last : Option (List Char)) :
    Independent tag io chunks last ↔
      io.error = none ∧ io.closed = false ∧ (crlf.items io.rd.contents).1 = [] ∧
        Paced tag (arrivals io.rd.contents chunks last) := by
  by_cases hlost : io.error.isSome = true ∨ io.closed = true
  · refine iff_of_false ?_ ?_
    · rintro ⟨r, hr, -, -, herror⟩
      obtain ⟨st, hst⟩ := @waitappend_lost tag io .kept false hlost (polls chunks last)
      obtain rfl := Option.some.inj (hst.symm.trans hr)
      rcases herror rfl with h | ⟨l, -, h⟩ <;> cases h
    · rintro ⟨herror, hopen, -⟩
      rcases hlost with h | h
      · simp [herror] at h
      · simp [hopen] at h
  · rw [not_or, Bool.not_eq_true, Bool.not_eq_true, Option.isSome_eq_false_iff,
      Option.isNone_iff_eq_none] at hlost
    obtain ⟨herror, hopen⟩ := hlost
    have hqueue := pending_of_open hopen
    have hrun := @waitappend_eq tag io .kept false heol herror hopen chunks last
    have hright : Independent tag io chunks last ↔
        Right tag (serverLines (io.rd.contents ++ chunks.flatten) last)
          (waitLines tag (pending io) .kept false
            (arrivals (crlf.items io.rd.contents).2 chunks last)) := by
      rw [Independent, hrun]
      simp
    rw [hright]
    cases h : (crlf.items io.rd.contents).1 with
    | nil =>
      have hcut : crlf.cut io.rd.contents = none := by
        cases hcut : crlf.cut io.rd.contents with
        | none => rfl
        | some q =>
          rw [Cutter.items_some hcut] at h
          exact absurd h (List.cons_ne_nil _ _)
      have hitems : crlf.items io.rd.contents = ([], io.rd.contents) := Cutter.items_none hcut
      rw [hqueue, hitems, ← flatten_arrivals hcut, right_waitLines]
      simp [herror, hopen]
    | cons s queue =>
      have hstalled := @stalled_of_queue tag
        (arrivals (crlf.items io.rd.contents).2 chunks last) s queue .kept
      rw [hqueue, h]
      refine iff_of_false (fun hr => ?_) (fun hr => absurd hr.2.2.1 (List.cons_ne_nil _ _))
      rw [hr.2.1] at hstalled
      exact Bool.false_ne_true hstalled

/-- A connection with nothing in its buffer. -/
def quiet : Io :=
  { rd := { base := ['\x00'], off := 0, size := 0, fits := by decide, space_pos := by decide }
    eol := ioCrlf }

/-- The server lets the client go on. -/
theorem independent_iff_goAhead :
    Independent 1 quiet [['+', '\r', '\n']] none ↔
      quiet.error = none ∧ quiet.closed = false ∧ (crlf.items quiet.rd.contents).1 = [] ∧
        Paced 1 (arrivals quiet.rd.contents [['+', '\r', '\n']] none) :=
  independent_iff rfl _ none

/-- An untagged line and the one that lets the client go on. -/
def twoLines : List Char := ['*', ' ', '\r', '\n', '+', '\r', '\n']

/-- The same two lines in one read and in two: in one, the second line is left in the buffer until
the poll times out, and the caller gets the first one for the error. -/
theorem one_read_stalls :
    deliverImapWaitappend 1 quiet .kept false (polls [twoLines] none) =
        some ⟨.error, .line ['*', ' '], true⟩ ∧
      deliverImapWaitappend 1 quiet .kept false (polls [twoLines.take 4, twoLines.drop 4] none) =
        some ⟨.continue, .line ['+'], false⟩ ∧
      ¬ Independent 1 quiet [twoLines] none := by
  have hone : deliverImapWaitappend 1 quiet .kept false (polls [twoLines] none) =
      some ⟨.error, .line ['*', ' '], true⟩ := by
    rw [waitappend_eq rfl rfl rfl]
    decide +kernel
  refine ⟨hone, ?_, ?_⟩
  · rw [waitappend_eq rfl rfl rfl]
    decide +kernel
  · rintro ⟨r, hr, -, hstalled, -⟩
    obtain rfl := Option.some.inj (hone.symm.trans hr)
    cases hstalled

end Fdm.Deliver.Imap
