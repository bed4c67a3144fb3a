import Fdm.Fetch.Wire
import Fdm.Io.Readline
import Mathlib.Data.List.TakeWhile

/-!
# State functions over a stream of bytes

A state function that waits for lines is called, and when it returns `FETCH_BLOCK` it is
called again after the next bytes have arrived. `serve` does this until it returns something
else.

* `Reads` says that a state function takes lines one by one, and needs no more of them than it
  takes; `Loops.reads` says it of the functions that loop over lines;
* `serve_done` and `serve_wait` say what `serve` comes to: what the state function makes of
  all lines at once, whatever the chunks.
-/

namespace Fdm.Fetch

open Lib.Intake

variable {D H ς α : Type}

/-- A state function. -/
abbrev StateFn (D H ς α : Type) :=
  FetchCtx ς α → Wire D H → FetchCode × FetchCtx ς α × Wire D H

/-- The connection, and how many lines have been read from it. -/
structure Link where
  io : Io
  count : ℕ := 0

/-- The lines as C strings. What the line buffer holds behind the terminator of the `n`-th
line is `stale n`. -/
def receive (stale : ℕ → List Char) : ℕ → List (List Char) → List Received
  | _, [] => []
  | n, l :: ls => .line (cstr l) (cstr (stale n)) :: receive stale (n + 1) ls

/-- Lines that can be read, `n` others having been read before. -/
def given (stale : ℕ → List Char) (n : ℕ) (ls : List (List Char)) (e : Wire D H) : Wire D H :=
  { e with inbuf := receive stale n ls }

/-- Read `n` lines. -/
def skip : ℕ → Io → Option Io
  | 0, io => some io
  | n + 1, io => do
    let (_, io) ← io.readline2
    skip n io

/-- A call of a state function that reads its lines with `io_readline2`, one by one, and
returns `FETCH_BLOCK` only when that gives `NULL`. -/
def call (st : StateFn D H ς α) (stale : ℕ → List Char) (fctx : FetchCtx ς α) (e : Wire D H)
    (link : Link) : Option (FetchCode × FetchCtx ς α × Wire D H × Link) := do
  let (lines, drained) ← link.io.drain
  let (code, fctx, e) := st fctx (given stale link.count lines e)
  if code = .block then
    some (code, fctx, { e with inbuf := [] }, ⟨drained, link.count + lines.length⟩)
  else
    let n := lines.length - e.inbuf.length
    let io ← skip n link.io
    some (code, fctx, { e with inbuf := [] }, ⟨io, link.count + n⟩)

/-- What has come of calling a state function, and the chunks that have not arrived yet. -/
structure Served (D H ς α : Type) where
  code : FetchCode
  fctx : FetchCtx ς α
  env : Wire D H
  link : Link
  coming : List (List Char)

/-- Call the state function, and again after each chunk while it returns `FETCH_BLOCK`. Once
reading has failed the next poll does. -/
def serve (st : StateFn D H ς α) (stale : ℕ → List Char) (fctx : FetchCtx ς α) (e : Wire D H)
    (link : Link) : List (List Char) → Option (Served D H ς α)
  | [] => do
    let (code, fctx, e, link) ← call st stale fctx e link
    some ⟨code, fctx, e, link, []⟩
  | chunk :: chunks => do
    let (code, fctx, e, link) ← call st stale fctx e link
    if code ≠ .block then some ⟨code, fctx, e, link, chunk :: chunks⟩
    else if link.io.error.isSome then some ⟨.error, fctx, e, link, chunk :: chunks⟩
    else
      let io ← link.io.poll chunk .nothing
      serve st stale fctx e { link with io := io } chunks

/-- When the state function returns `FETCH_AGAIN`, the next one is called at once; here at most
`n` times. -/
def serveAgain (st : StateFn D H ς α) (stale : ℕ → List Char) :
    ℕ → FetchCtx ς α → Wire D H → Link → List (List Char) → Option (Served D H ς α)
  | 0, fctx, e, link, chunks => serve st stale fctx e link chunks
  | n + 1, fctx, e, link, chunks => do
    let s ← serve st stale fctx e link chunks
    if s.code = .again then serveAgain st stale n s.fctx s.env s.link s.coming else some s

/-- The text of the lines. -/
def text (ls : List (List Char)) : List Char := (ls.map (· ++ ['\n'])).flatten

/-! ## State functions that take lines one by one -/

/-- No read in front of the end of these fails. -/
def Whole (ls : List Received) : Prop := .broken ∉ ls

/-- In the states `S` the function takes lines from the front. When it blocks it has taken all
of them and goes on with what comes next; when it does not, what comes next is left alone. -/
structure Reads (st : StateFn D H ς α) (S : FetchCtx ς α → Wire D H → Prop) : Prop where
  block : ∀ {fctx e fctx' e' ls}, S fctx e → Whole ls →
    st fctx { e with inbuf := ls } = (.block, fctx', e') →
    e'.inbuf = [] ∧ S fctx' e' ∧ ∀ ls', Whole ls' →
      st fctx { e with inbuf := ls ++ ls' } = st fctx' { e' with inbuf := ls' }
  other : ∀ {fctx e code fctx' e' ls}, S fctx e → Whole ls →
    st fctx { e with inbuf := ls } = (code, fctx', e') → code ≠ .block →
    (∃ used, ls = used ++ e'.inbuf) ∧ ∀ ls', Whole ls' →
      st fctx { e with inbuf := ls ++ ls' } = (code, fctx', { e' with inbuf := e'.inbuf ++ ls' })

/-- A line without NUL is read as it is. -/
theorem cstr_of_not_mem {s : List Char} (h : '\x00' ∉ s) : cstr s = s :=
  List.takeWhile_eq_self_iff.mpr fun c hc => by
    rw [decide_eq_true_iff]
    rintro rfl
    exact h hc

/-- No read of lines that were received fails. -/
theorem whole_receive (stale : ℕ → List Char) (n : ℕ) (ls : List (List Char)) :
    Whole (receive stale n ls) := by
  induction ls generalizing n with
  | nil => exact List.not_mem_nil
  | cons l ls ih =>
    intro h
    rcases List.mem_cons.mp h with h | h
    · cases h
    · exact ih (n + 1) h

@[simp] theorem length_receive (stale : ℕ → List Char) (n : ℕ) (ls : List (List Char)) :
    (receive stale n ls).length = ls.length := by
  induction ls generalizing n with
  | nil => rfl
  | cons l ls ih => rw [receive, List.length_cons, ih, List.length_cons]

/-- Lines are received one after another, whatever the buffer had before. -/
theorem receive_append (stale : ℕ → List Char) (n : ℕ) (ls ls' : List (List Char)) :
    receive stale n (ls ++ ls') = receive stale n ls ++ receive stale (n + ls.length) ls' := by
  induction ls generalizing n with
  | nil => rfl
  | cons l ls ih =>
    rw [List.cons_append, receive, receive, ih, List.cons_append, List.length_cons]
    congr 3
    omega

/-- Nor does one of two such lists, one after another. -/
theorem Whole.append {ls ls' : List Received} (h : Whole ls) (h' : Whole ls') :
    Whole (ls ++ ls') := fun hmem => (List.mem_append.mp hmem).elim h h'

/-! ## Loops over lines

The loop of a state function eats line after line until there is none left, or one that it
leaves the loop with. -/

section Loops

variable {τ : Type}

/-- A loop over the lines that have arrived: what has been made of them, and the line that it
was left with and those behind it. -/
def loop (eat : τ → List Char → Option τ) :
    List Received → τ → τ × Option (List Char × List Received)
  | [], t => (t, none)
  | .broken :: _, t => (t, none)
  | .line s _ :: rest, t =>
    match eat t s with
    | some t' => loop eat rest t'
    | none => (t, some (s, rest))

variable {eat : τ → List Char → Option τ} {ls ls' rest : List Received} {t t' : τ} {s : List Char}

/-- A loop that waits goes on with the lines that come next. -/
theorem loop_append_none (hwhole : Whole ls) (h : loop eat ls t = (t', none)) :
    loop eat (ls ++ ls') t = loop eat ls' t' := by
  induction ls generalizing t with
  | nil =>
    obtain rfl : t = t' := congrArg Prod.fst h
    rfl
  | cons x ls ih =>
    have hrest : Whole ls := fun hmem => hwhole (List.mem_cons_of_mem x hmem)
    cases x with
    | broken => exact absurd List.mem_cons_self hwhole
    | line s stale =>
      rw [List.cons_append, loop]
      rw [loop] at h
      cases heat : eat t s with
      | none =>
        rw [heat] at h
        cases h
      | some t₁ =>
        rw [heat] at h
        exact ih hrest h

/-- A loop that is done leaves what comes next. -/
theorem loop_append_some (hwhole : Whole ls) (h : loop eat ls t = (t', some (s, rest))) :
    (∃ used, ls = used ++ rest) ∧ loop eat (ls ++ ls') t = (t', some (s, rest ++ ls')) := by
  induction ls generalizing t with
  | nil => cases h
  | cons x ls ih =>
    have hrest : Whole ls := fun hmem => hwhole (List.mem_cons_of_mem x hmem)
    cases x with
    | broken => exact absurd List.mem_cons_self hwhole
    | line s₁ stale =>
      rw [List.cons_append, loop]
      rw [loop] at h
      cases heat : eat t s₁ with
      | none =>
        rw [heat] at h
        cases h
        exact ⟨⟨[_], rfl⟩, rfl⟩
      | some t₁ =>
        rw [heat] at h
        obtain ⟨⟨used, hused⟩, hloop⟩ := ih hrest h
        exact ⟨⟨_ :: used, by rw [hused, List.cons_append]⟩, hloop⟩

/-- What a loop works on in the state, and how it is left: `more` when there are no more lines,
`done` with a line. -/
structure Ends (D H ς α τ : Type) where
  get : FetchCtx ς α → Wire D H → τ
  more : FetchCtx ς α → Wire D H → τ → FetchCtx ς α × Wire D H
  done : FetchCtx ς α → Wire D H → τ → List Char → List Received →
    FetchCode × FetchCtx ς α × Wire D H
  get_more : ∀ fctx e t, get (more fctx e t).1 (more fctx e t).2 = t
  inbuf_more : ∀ fctx e t, (more fctx e t).2.inbuf = []
  more_more : ∀ fctx e t t', more (more fctx e t).1 (more fctx e t).2 t' = more fctx e t'
  done_more : ∀ fctx e t t' s rest,
    done (more fctx e t).1 (more fctx e t).2 t' s rest = done fctx e t' s rest
  code_done : ∀ fctx e t s rest, (done fctx e t s rest).1 ≠ .block
  inbuf_done : ∀ fctx e t s rest, (done fctx e t s rest).2.2.inbuf = rest
  done_append : ∀ fctx e t s rest ls', done fctx e t s (rest ++ ls') =
    ((done fctx e t s rest).1, (done fctx e t s rest).2.1,
      { (done fctx e t s rest).2.2 with inbuf := rest ++ ls' })

/-- In the states `S` the state function is a loop over lines. -/
structure Loops (st : StateFn D H ς α) (S : FetchCtx ς α → Wire D H → Prop)
    (eat : τ → List Char → Option τ) (E : Ends D H ς α τ) : Prop where
  state : ∀ {fctx e ls}, S fctx e → Whole ls → st fctx { e with inbuf := ls } =
    match loop eat ls (E.get fctx e) with
    | (t, none) => (.block, E.more fctx e t)
    | (t, some (s, rest)) => E.done fctx e t s rest
  more : ∀ {fctx e}, S fctx e → ∀ t, S (E.more fctx e t).1 (E.more fctx e t).2

variable {st : StateFn D H ς α} {S : FetchCtx ς α → Wire D H → Prop} {E : Ends D H ς α τ}
  {fctx : FetchCtx ς α} {e : Wire D H}

/-- A state function that has read all lines waits for more. -/
theorem Loops.state_more (h : Loops st S eat E) (hS : S fctx e) (hwhole : Whole ls)
    (hloop : loop eat ls (E.get fctx e) = (t, none)) :
    st fctx { e with inbuf := ls } = (.block, E.more fctx e t) := by
  rw [h.state hS hwhole, hloop]

/-- A state function that has read what it looks for goes on. -/
theorem Loops.state_done (h : Loops st S eat E) (hS : S fctx e) (hwhole : Whole ls)
    (hloop : loop eat ls (E.get fctx e) = (t, some (s, rest))) :
    st fctx { e with inbuf := ls } = E.done fctx e t s rest := by
  rw [h.state hS hwhole, hloop]

/-- A loop over lines takes lines one by one. -/
theorem Loops.reads (h : Loops st S eat E) : Reads st S where
  block := by
    intro fctx e fctx' e' ls hS hwhole hcall
    rcases hloop : loop eat ls (E.get fctx e) with ⟨t, _ | ⟨s, rest⟩⟩
    · rw [h.state_more hS hwhole hloop, Prod.mk.injEq] at hcall
      have hctx : (E.more fctx e t).1 = fctx' := congrArg Prod.fst hcall.2
      have henv : (E.more fctx e t).2 = e' := congrArg Prod.snd hcall.2
      have hS' : S fctx' e' := hctx ▸ henv ▸ h.more hS t
      have hget : E.get fctx' e' = t := hctx ▸ henv ▸ E.get_more fctx e t
      refine ⟨henv ▸ E.inbuf_more fctx e t, hS', fun ls' hwhole' => ?_⟩
      rw [h.state hS (hwhole.append hwhole'), h.state hS' hwhole', loop_append_none hwhole hloop,
        hget]
      split
      · rw [← hctx, ← henv, E.more_more]
      · rw [← hctx, ← henv, E.done_more]
    · rw [h.state_done hS hwhole hloop] at hcall
      exact absurd (congrArg Prod.fst hcall) (E.code_done fctx e t s rest)
  other := by
    intro fctx e code fctx' e' ls hS hwhole hcall hcode
    rcases hloop : loop eat ls (E.get fctx e) with ⟨t, _ | ⟨s, rest⟩⟩
    · rw [h.state_more hS hwhole hloop] at hcall
      exact absurd (congrArg Prod.fst hcall).symm hcode
    · rw [h.state_done hS hwhole hloop] at hcall
      have hrest : e'.inbuf = rest := by
        have hinbuf := E.inbuf_done fctx e t s rest
        rwa [hcall] at hinbuf
      rw [hrest]
      have happend : ∀ ls', (∃ used, ls = used ++ rest) ∧
          loop eat (ls ++ ls') (E.get fctx e) = (t, some (s, rest ++ ls')) :=
        fun ls' => loop_append_some hwhole hloop
      refine ⟨(happend []).1, fun ls' hwhole' => ?_⟩
      rw [h.state_done hS (hwhole.append hwhole') (happend ls').2,
        E.done_append, hcall]

end Loops

/-! ## The bytes that are left -/

section Lines

variable {eol : List Char} (heol : Io.Eol eol)

/-- The lines of what has been received. -/
def linesOf (s : List Char) : List (List Char) := ((Io.cutter eol heol).items s).1

/-- What follows the last line. -/
def restOf (s : List Char) : List Char := ((Io.cutter eol heol).items s).2

/-- The lines, and what is behind the last one, are the bytes. -/
theorem joined_linesOf (s : List Char) : joined eol (linesOf heol s) (restOf heol s) = s :=
  (eq_joined heol.plain.ne_nil ioMaxlinelen s).symm

/-- The lines of two parts: what is left of the first one begins the next line. -/
theorem linesOf_append (s t : List Char) :
    linesOf heol (s ++ t) = linesOf heol s ++ linesOf heol (restOf heol s ++ t) :=
  congrArg Prod.fst ((Io.cutter eol heol).items_append s t)

/-- What is left of two parts is left of the rest of the first, and the second. -/
theorem restOf_append (s t : List Char) :
    restOf heol (s ++ t) = restOf heol (restOf heol s ++ t) := by
  rw [restOf, Cutter.items_append]
  rfl

/-- Lines that fit are read as they were sent. -/
theorem linesOf_joined {ls : List (List Char)}
    (hls : ∀ l ∈ ls, ¬ eol <:+: l ∧ l.length + eol.length ≤ ioMaxlinelen) (p : List Char) :
    linesOf heol (joined eol ls p) = ls ++ linesOf heol p ∧
      restOf heol (joined eol ls p) = restOf heol p := by
  have hitems := items_joined heol.plain hls p
  exact ⟨congrArg Prod.fst hitems, by rw [restOf, Io.cutter, hitems]; rfl⟩

/-- Once a line is too long, no more lines come. -/
theorem linesOf_append_of_long {s : List Char} (h : ioMaxlinelen ≤ (restOf heol s).length)
    (t : List Char) : linesOf heol (s ++ t) = linesOf heol s := by
  have hcut := cut_terminated_stuck ((Io.cutter eol heol).cut_items s) h t
  rw [linesOf_append]
  have hnone : linesOf heol (restOf heol s ++ t) = [] := congrArg Prod.fst (Cutter.items_none hcut)
  rw [hnone, List.append_nil]

/-- A line that is too long is never ended. -/
theorem restOf_append_of_long {s : List Char} (h : ioMaxlinelen ≤ (restOf heol s).length)
    (t : List Char) : restOf heol (s ++ t) = restOf heol s ++ t := by
  have hcut := cut_terminated_stuck ((Io.cutter eol heol).cut_items s) h t
  rw [restOf_append]
  exact congrArg Prod.snd (Cutter.items_none hcut)

/-- A link that bytes may still arrive on. -/
structure Link.Live (link : Link) (eol : List Char) : Prop where
  eol : link.io.eol = eol
  opened : link.io.closed = false
  error : link.io.error = none

/-- A link on which nothing has arrived yet. -/
def Link.fresh : Link :=
  { io :=
      { rd :=
          { base := List.replicate ioBlocksize '\x00'
            off := 0
            size := 0
            fits := Nat.zero_le _
            space_pos := by rw [List.length_replicate]; decide }
        eol := ioCrlf } }

theorem Link.fresh_live : Link.fresh.Live ioCrlf := ⟨rfl, rfl, rfl⟩

/-- Reading the first lines leaves the others. -/
theorem skip_spec {n : ℕ} {io : Io} (hio : io.eol = eol) (herror : io.error = none)
    (hn : n ≤ (linesOf heol io.rd.contents).length) :
    ∃ io', skip n io = some io' ∧ Io.Same io io' ∧ io'.error = none ∧
      io'.rd.contents
        = joined eol ((linesOf heol io.rd.contents).drop n) (restOf heol io.rd.contents) := by
  induction n generalizing io with
  | zero => exact ⟨io, rfl, ⟨rfl, rfl⟩, herror, (joined_linesOf heol _).symm⟩
  | succ n ih =>
    subst hio
    cases hcut : (Io.cutter io.eol heol).cut io.rd.contents with
    | none =>
      rw [linesOf, Cutter.items_none hcut] at hn
      cases hn
    | some q =>
      obtain ⟨io', hread, hsame, herror', hcontents⟩ := Io.readline2_line heol herror hcut
      have hlines : linesOf heol io.rd.contents = q.1 :: linesOf heol io'.rd.contents := by
        rw [hcontents]
        exact congrArg Prod.fst (Cutter.items_some hcut)
      have hrest : restOf heol io.rd.contents = restOf heol io'.rd.contents := by
        rw [hcontents, restOf, Cutter.items_some hcut]
        rfl
      rw [hlines] at hn
      obtain ⟨io'', hskip, hsame', herror'', hcontents'⟩ :=
        ih hsame.eol herror' (Nat.le_of_succ_le_succ hn)
      refine ⟨io'', ?_, hsame.trans hsame', herror'', ?_⟩
      · rw [skip, hread]
        exact hskip
      · rw [hcontents', hlines, hrest, List.drop_succ_cons]

variable {st : StateFn D H ς α} {S : FetchCtx ς α → Wire D H → Prop} {stale : ℕ → List Char}
  {fctx fctx' : FetchCtx ς α} {e e' : Wire D H} {link : Link} {code : FetchCode}

/-- Reading until nothing is left hands out the lines that are there. -/
theorem drain_eq (hlive : link.Live eol) :
    ∃ io, link.io.drain = some (linesOf heol link.io.rd.contents, io) ∧ Io.Same link.io io ∧
      io.error = Io.failure (restOf heol link.io.rd.contents) ∧
      io.rd.contents = restOf heol link.io.rd.contents := by
  obtain ⟨heq, hopened, herror⟩ := hlive
  subst heq
  obtain ⟨io, hlines, hsame, herror', hrest⟩ :=
    Io.readlines_eq link.io heol (Nat.le_refl _) herror
  rw [if_neg (by simp [hopened]), List.append_nil] at hlines
  exact ⟨io, hlines, hsame, herror', hrest hopened⟩

/-- A call that does not block leaves the lines it has not read. -/
theorem call_other (hlive : link.Live eol)
    (hcall : st fctx (given stale link.count (linesOf heol link.io.rd.contents) e)
      = (code, fctx', e')) (hcode : code ≠ .block) :
    ∃ link', call st stale fctx e link = some (code, fctx', { e' with inbuf := [] }, link') ∧
      link'.Live eol ∧
      link'.count
        = link.count + ((linesOf heol link.io.rd.contents).length - e'.inbuf.length) ∧
      link'.io.rd.contents = joined eol
        ((linesOf heol link.io.rd.contents).drop
          ((linesOf heol link.io.rd.contents).length - e'.inbuf.length))
        (restOf heol link.io.rd.contents) := by
  obtain ⟨drained, hlines, -⟩ := drain_eq heol hlive
  obtain ⟨io, hskip, hsame, herror, hrest⟩ :=
    skip_spec heol hlive.eol hlive.error (Nat.sub_le _ e'.inbuf.length)
  refine ⟨⟨io, _⟩, ?_, ⟨hsame.eol.trans hlive.eol, hsame.closed.trans hlive.opened, herror⟩, rfl,
    hrest⟩
  rw [call, hlines]
  simp only [Option.bind_eq_bind, Option.bind_some, hcall, if_neg hcode, hskip]

/-- A call that blocks has read all lines. -/
theorem call_block (hst : Reads st S) (hS : S fctx e) (hlive : link.Live eol)
    (hcall : st fctx (given stale link.count (linesOf heol link.io.rd.contents) e)
      = (.block, fctx', e')) :
    ∃ io, call st stale fctx e link = some (.block, fctx', e',
        ⟨io, link.count + (linesOf heol link.io.rd.contents).length⟩) ∧
      Io.Same link.io io ∧ io.error = Io.failure (restOf heol link.io.rd.contents) ∧
      io.rd.contents = restOf heol link.io.rd.contents := by
  obtain ⟨drained, hlines, hsame, herror, hrest⟩ := drain_eq heol hlive
  refine ⟨drained, ?_, hsame, herror, hrest⟩
  have hempty := (hst.block hS (whole_receive _ _ _) hcall).1
  have henv : { e' with inbuf := [] } = e' := by rw [← hempty]
  rw [call, hlines]
  simp only [Option.bind_eq_bind, Option.bind_some, hcall, if_pos, henv]

/-! ## What serving a stream comes to -/

/-- A call that does not wait ends the serving. -/
theorem serve_call {chunks : List (List Char)}
    (hcall : call st stale fctx e link = some (code, fctx', e', link')) (hcode : code ≠ .block) :
    serve st stale fctx e link chunks = some ⟨code, fctx', e', link', chunks⟩ := by
  cases chunks with
  | nil =>
    rw [serve, hcall]
    rfl
  | cons chunk chunks =>
    rw [serve, hcall]
    simp only [Option.bind_eq_bind, Option.bind_some, if_pos hcode]

/-- More bytes arrive behind the ones that are left. -/
theorem poll_live (hlive : link.Live eol) {io : Io} (hsame : Io.Same link.io io)
    (hnone : io.error = none) (n : ℕ) (chunk : List Char) (chunks : List (List Char)) :
    ∃ io', io.poll chunk .nothing = some io' ∧ Link.Live ⟨io', n⟩ eol ∧
      io'.rd.contents ++ chunks.flatten = io.rd.contents ++ (chunk :: chunks).flatten := by
  obtain ⟨io', hpoll, hsame', herror, hcontents⟩ :=
    Io.poll_spec hnone (hsame.closed.trans hlive.opened) chunk
  refine ⟨io', hpoll, ?_, by rw [hcontents, List.append_assoc, List.flatten_cons]⟩
  exact ⟨(hsame'.eol.trans hsame.eol).trans hlive.eol,
    (hsame'.closed.trans hsame.closed).trans hlive.opened, herror⟩

/-- Behind a call that blocks the rest of the stream is served. -/
theorem serve_poll {io io' : Io} {n : ℕ} {chunk : List Char} {chunks : List (List Char)}
    (hcalled : call st stale fctx e link = some (.block, fctx', e', ⟨io, n⟩))
    (hnone : io.error = none) (hpoll : io.poll chunk .nothing = some io') :
    serve st stale fctx e link (chunk :: chunks) = serve st stale fctx' e' ⟨io', n⟩ chunks := by
  rw [serve, hcalled]
  simp only [Option.bind_eq_bind, Option.bind_some, ne_eq, not_true_eq_false, if_false, hnone,
    Option.isSome_none, Bool.false_eq_true, hpoll]

/-- What `serve` comes to when the lines `ls` in front of `p` are what can be read, and the state
function leaves `unread` of them. -/
structure Done (eol : List Char) (link : Link) (ls : List (List Char)) (p : List Char)
    (unread : ℕ) (link' : Link) (coming : List (List Char)) : Prop where
  live : link'.Live eol
  count : link'.count = link.count + (ls.length - unread)
  bytes : link'.io.rd.contents ++ coming.flatten = joined eol (ls.drop (ls.length - unread)) p

/-- When all lines of the stream, put together, make the state function return something, then
`serve` returns it, and the lines that it has not read are still to come. -/
theorem serve_done (hst : Reads st S) (hS : S fctx e) (hlive : link.Live eol)
    (chunks : List (List Char))
    (hcall : st fctx (given stale link.count
      (linesOf heol (link.io.rd.contents ++ chunks.flatten)) e) = (code, fctx', e'))
    (hcode : code ≠ .block) :
    ∃ link' coming, serve st stale fctx e link chunks
        = some ⟨code, fctx', { e' with inbuf := [] }, link', coming⟩ ∧
      Done eol link (linesOf heol (link.io.rd.contents ++ chunks.flatten))
        (restOf heol (link.io.rd.contents ++ chunks.flatten)) e'.inbuf.length link' coming := by
  induction chunks generalizing fctx e link with
  | nil =>
    rw [List.flatten_nil, List.append_nil] at hcall ⊢
    obtain ⟨link', hcalled, hlive', hcount, hbytes⟩ := call_other heol hlive hcall hcode
    refine ⟨link', [], serve_call hcalled hcode, hlive', hcount, ?_⟩
    rw [List.flatten_nil, List.append_nil, hbytes]
  | cons chunk chunks ih =>
    have hsplit := linesOf_append heol link.io.rd.contents (chunk :: chunks).flatten
    have hrest := restOf_append heol link.io.rd.contents (chunk :: chunks).flatten
    have hwhole := whole_receive stale link.count (linesOf heol link.io.rd.contents)
    have hall := hcall
    rw [given, hsplit, receive_append] at hcall
    rw [hsplit, hrest]
    obtain ⟨code₁, fctx₁, e₁, hfirst⟩ : ∃ code₁ fctx₁ e₁,
        st fctx (given stale link.count (linesOf heol link.io.rd.contents) e)
          = (code₁, fctx₁, e₁) := ⟨_, _, _, rfl⟩
    by_cases hblock : code₁ = .block
    · subst hblock
      obtain ⟨-, hS₁, hmore⟩ := hst.block hS hwhole hfirst
      rw [hmore _ (whole_receive _ _ _)] at hcall
      obtain ⟨io, hcalled, hsame, herror, hcontents⟩ := call_block heol hst hS hlive hfirst
      have hnone : io.error = none := by
        rw [herror, Io.failure]
        refine if_neg fun hlong => ?_
        -- no more lines come, so the function would block on all of them
        rw [linesOf_append_of_long heol hlong, hfirst] at hall
        exact hcode (congrArg Prod.fst hall).symm
      obtain ⟨io', hpoll, hlive', hbytes⟩ := poll_live hlive hsame hnone
        (link.count + (linesOf heol link.io.rd.contents).length) chunk chunks
      rw [hcontents] at hbytes
      obtain ⟨used, hused⟩ := (hst.other hS₁ (whole_receive _ _ _) hcall hcode).1
      have hunread : e'.inbuf.length
          ≤ (linesOf heol (restOf heol link.io.rd.contents ++ (chunk :: chunks).flatten)).length := by
        have h := congrArg List.length hused
        rw [length_receive, List.length_append] at h
        omega
      obtain ⟨link', coming, hserve, hdone⟩ := ih hS₁ hlive' (by rw [hbytes]; exact hcall)
      rw [hbytes] at hdone
      refine ⟨link', coming, ?_, hdone.live, ?_, ?_⟩
      · rw [serve_poll hcalled hnone hpoll, hserve]
      · rw [hdone.count, List.length_append]
        show _ + _ + _ = _
        omega
      · rw [hdone.bytes, List.length_append, Nat.add_sub_assoc hunread, ← List.drop_drop,
          List.drop_left]
    · obtain ⟨⟨used, hused⟩, hmore⟩ := hst.other hS hwhole hfirst hblock
      have hunread := congrArg List.length hused
      rw [length_receive, List.length_append] at hunread
      rw [hmore _ (whole_receive _ _ _), Prod.mk.injEq, Prod.mk.injEq] at hcall
      obtain ⟨rfl, rfl, rfl⟩ := hcall
      obtain ⟨link', hcalled, hlive', hcount, hbytes⟩ := call_other heol hlive hfirst hblock
      refine ⟨link', chunk :: chunks, serve_call hcalled hcode, hlive', ?_, ?_⟩
      · rw [hcount, List.length_append, List.length_append, length_receive]
        omega
      · have hkept : (linesOf heol link.io.rd.contents
            ++ linesOf heol (restOf heol link.io.rd.contents ++ (chunk :: chunks).flatten)).length
            - (e₁.inbuf ++ receive stale (link.count + (linesOf heol link.io.rd.contents).length)
              (linesOf heol
                (restOf heol link.io.rd.contents ++ (chunk :: chunks).flatten))).length
            = (linesOf heol link.io.rd.contents).length - e₁.inbuf.length := by
          rw [List.length_append, List.length_append, length_receive]
          omega
        rw [hkept, List.drop_append_of_le_length (Nat.sub_le _ _), ← joined_joined,
          joined_linesOf, hbytes, joined_append]

/-- When all lines of the stream, put together, make the state function block, then `serve`
stops in the same state, because no more is coming or because a line is too long. -/
theorem serve_wait (hst : Reads st S) (hS : S fctx e) (hlive : link.Live eol)
    (chunks : List (List Char))
    (hcall : st fctx (given stale link.count
      (linesOf heol (link.io.rd.contents ++ chunks.flatten)) e) = (.block, fctx', e')) :
    ∃ s, serve st stale fctx e link chunks = some s ∧ (s.code = .block ∨ s.code = .error) ∧
      s.fctx = fctx' ∧ s.env = e' ∧ s.link.io.rd.contents ++ s.coming.flatten
        = restOf heol (link.io.rd.contents ++ chunks.flatten) := by
  induction chunks generalizing fctx e link with
  | nil =>
    rw [List.flatten_nil, List.append_nil] at hcall
    obtain ⟨io, hcalled, -, -, hcontents⟩ := call_block heol hst hS hlive hcall
    refine ⟨⟨.block, fctx', e', ⟨io, link.count + (linesOf heol link.io.rd.contents).length⟩, []⟩,
      ?_, Or.inl rfl, rfl, rfl, ?_⟩
    · rw [serve, hcalled]
      rfl
    · rw [List.flatten_nil, List.append_nil, List.append_nil]
      exact hcontents
  | cons chunk chunks ih =>
    have hsplit := linesOf_append heol link.io.rd.contents (chunk :: chunks).flatten
    have hwhole := whole_receive stale link.count (linesOf heol link.io.rd.contents)
    have hall := hcall
    rw [given, hsplit, receive_append] at hcall
    obtain ⟨code₁, fctx₁, e₁, hfirst⟩ : ∃ code₁ fctx₁ e₁,
        st fctx (given stale link.count (linesOf heol link.io.rd.contents) e)
          = (code₁, fctx₁, e₁) := ⟨_, _, _, rfl⟩
    by_cases hblock : code₁ = .block
    · subst hblock
      obtain ⟨-, hS₁, hmore⟩ := hst.block hS hwhole hfirst
      rw [hmore _ (whole_receive _ _ _)] at hcall
      obtain ⟨io, hcalled, hsame, herror, hcontents⟩ := call_block heol hst hS hlive hfirst
      by_cases hlong : ioMaxlinelen ≤ (restOf heol link.io.rd.contents).length
      · have hsome : io.error.isSome := by rwa [herror, Io.failure_isSome]
        rw [linesOf_append_of_long heol hlong, hfirst, Prod.mk.injEq, Prod.mk.injEq] at hall
        obtain ⟨-, rfl, rfl⟩ := hall
        refine ⟨⟨.error, fctx₁, e₁,
          ⟨io, link.count + (linesOf heol link.io.rd.contents).length⟩, chunk :: chunks⟩, ?_,
          Or.inr rfl, rfl, rfl, ?_⟩
        · rw [serve, hcalled]
          simp only [Option.bind_eq_bind, Option.bind_some, ne_eq, not_true_eq_false, if_false,
            if_pos hsome]
        · rw [restOf_append_of_long heol hlong]
          exact congrArg (· ++ _) hcontents
      · have hnone : io.error = none := by
          rw [herror, Io.failure, if_neg hlong]
        obtain ⟨io', hpoll, hlive', hbytes⟩ := poll_live hlive hsame hnone
          (link.count + (linesOf heol link.io.rd.contents).length) chunk chunks
        rw [hcontents] at hbytes
        obtain ⟨s, hserve, hcode, hctx, henv, hleft⟩ :=
          ih hS₁ hlive' (by rw [hbytes]; exact hcall)
        rw [hbytes, ← restOf_append] at hleft
        refine ⟨s, ?_, hcode, hctx, henv, hleft⟩
        rw [serve_poll hcalled hnone hpoll, hserve]
    · obtain ⟨-, hmore⟩ := hst.other hS hwhole hfirst hblock
      rw [hmore _ (whole_receive _ _ _)] at hcall
      exact absurd (congrArg Prod.fst hcall) hblock

/-- A loop over lines that leaves with one of them, the stream being the lines `taken` and
`rest`: what follows the taken lines is left. -/
theorem Loops.serve_done {τ : Type} {eat : τ → List Char → Option τ} {E : Ends D H ς α τ}
    (h : Loops st S eat E) (hS : S fctx e) (hlive : link.Live eol) (chunks : List (List Char))
    {taken : List (List Char)} {rest s : List Char} {t : τ} {n : ℕ}
    (hstream : link.io.rd.contents ++ chunks.flatten = joined eol taken rest)
    (hpieces : ∀ l ∈ taken, ¬ eol <:+: l ∧ l.length + eol.length ≤ ioMaxlinelen)
    (hloop : loop eat (receive stale link.count (taken ++ linesOf heol rest)) (E.get fctx e)
      = (t, some (s, receive stale n (linesOf heol rest)))) :
    ∃ link' coming, serve st stale fctx e link chunks = some
        ⟨(E.done fctx e t s (receive stale n (linesOf heol rest))).1,
          (E.done fctx e t s (receive stale n (linesOf heol rest))).2.1,
          { (E.done fctx e t s (receive stale n (linesOf heol rest))).2.2 with inbuf := [] },
          link', coming⟩ ∧
      link'.Live eol ∧ link'.io.rd.contents ++ coming.flatten = rest := by
  obtain ⟨hlines, hrest⟩ := linesOf_joined heol hpieces rest
  rw [← hstream] at hlines hrest
  have hcall := h.state_done hS (whole_receive _ _ _) hloop
  have hinbuf := E.inbuf_done fctx e t s (receive stale n (linesOf heol rest))
  have hcode := E.code_done fctx e t s (receive stale n (linesOf heol rest))
  rw [← hlines] at hcall
  generalize E.done fctx e t s (receive stale n (linesOf heol rest)) = r at hcall hinbuf hcode
  obtain ⟨code, fctx', e'⟩ := r
  obtain ⟨link', coming, hserve, hdone⟩ :=
    Fetch.serve_done heol h.reads hS hlive chunks hcall hcode
  refine ⟨link', coming, hserve, hdone.live, ?_⟩
  have hkept : (taken ++ linesOf heol rest).length - (linesOf heol rest).length
      = taken.length := by
    rw [List.length_append]
    omega
  have hbytes := hdone.bytes
  rw [hinbuf, length_receive, hlines, hrest, hkept, List.drop_left, joined_linesOf] at hbytes
  exact hbytes

end Lines

end Fdm.Fetch
