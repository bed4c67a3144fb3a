import Fdm.Lib.Intake

/-!
# Reading lines from a descriptor

`buffer.c` and the reading half of `io.c`.

* `Buffer` is `struct buffer`; what `fatalx` would end is `none`. Its sizes are natural
  numbers: no memory is large enough for the sum of two of them to pass `SIZE_MAX`. With a
  `size_t` it is in `Bytebuf`, and the calls made here do the same there.
* `Io` is `struct io` without its write buffer. `fill` and `poll` are told what `read` finds.
* `session` is a whole stream, read line by line while it arrives.
-/

namespace Fdm

/-! ## Buffers -/

/-- `struct buffer`; `b->space` is the length of `base`. -/
structure Buffer where
  base : List Char
  off : ℕ
  size : ℕ
  fits : off + size ≤ base.length
  space_pos : 0 < base.length

namespace Buffer

variable (b : Buffer)

/-- `BUFFER_FREE`. -/
def free : ℕ := b.base.length - b.off - b.size

/-- The bytes from `BUFFER_OUT` on, `BUFFER_USED` of them. -/
def contents : List Char := (b.base.drop b.off).take b.size

/-- `buffer_create`. -/
def create (size : ℕ) : Option Buffer :=
  if h : size = 0 then none
  else
    some
      { base := List.replicate size '\x00'
        off := 0
        size := 0
        fits := by simp
        space_pos := by simp; omega }

/-- The loop of `buffer_ensure`: double the space until there is enough. -/
def enlarge : ℕ → List Char → ℕ → List Char
  | 0, base, _ => base
  | n + 1, base, want =>
    if base.length < want then enlarge n (base ++ List.replicate base.length '\x00') want
    else base

/-- A buffer that is made larger keeps its bytes. -/
theorem le_length_enlarge (n : ℕ) (base : List Char) (want : ℕ) :
    base.length ≤ (enlarge n base want).length := by
  induction n generalizing base with
  | zero => exact Nat.le_refl _
  | succ n ih =>
    rw [enlarge]
    split
    · refine Nat.le_trans ?_ (ih _)
      rw [List.length_append]
      omega
    · exact Nat.le_refl _

/-- Move the contents to the front of the space. -/
def compact : Buffer :=
  if b.off = 0 then b
  else
    { base := b.contents ++ b.base.drop b.size
      off := 0
      size := b.size
      fits := by
        have := b.fits
        rw [List.length_append, List.length_drop, contents, List.length_take, List.length_drop]
        omega
      space_pos := by
        have := b.fits
        have := b.space_pos
        rw [List.length_append, List.length_drop, contents, List.length_take, List.length_drop]
        omega }

/-- `buffer_ensure`. -/
def ensure (size : ℕ) : Option Buffer :=
  if size = 0 then none
  else if size ≤ b.free then some b
  else
    let c := b.compact
    some
      { base := enlarge (c.size + size) c.base (c.size + size)
        off := c.off
        size := c.size
        fits := Nat.le_trans c.fits (le_length_enlarge _ _ _)
        space_pos := Nat.lt_of_lt_of_le c.space_pos (le_length_enlarge _ _ _) }

/-- Write `data` at `BUFFER_IN`, where it must fit, and `buffer_add`. -/
def add (data : List Char) : Option Buffer :=
  if h : data ≠ [] ∧ data.length ≤ b.free then
    some
      { base :=
          b.base.take (b.off + b.size) ++ data ++ b.base.drop (b.off + b.size + data.length)
        off := b.off
        size := b.size + data.length
        fits := by
          have := b.fits
          have := h.2
          unfold free at this
          rw [List.length_append, List.length_append, List.length_take, List.length_drop]
          omega
        space_pos := by
          have := List.length_pos_iff.mpr h.1
          rw [List.length_append, List.length_append]
          omega }
  else none

/-- `buffer_remove`. -/
def remove (size : ℕ) : Option Buffer :=
  if h : size = 0 ∨ b.size < size then none
  else
    some
      { base := b.base
        off := b.off + size
        size := b.size - size
        fits := by
          have := b.fits
          omega
        space_pos := b.space_pos }

/-- `buffer_read`. -/
def read (size : ℕ) : Option (List Char × Buffer) :=
  (b.remove size).map fun b' => (b.contents.take size, b')

end Buffer

/-! ## Descriptors -/

/-- `IO_BLOCKSIZE`. -/
def ioBlocksize : ℕ := 16384

/-- `IO_WATERMARK`. -/
def ioWatermark : ℕ := 12288

/-- `IO_MAXLINELEN`. -/
def ioMaxlinelen : ℕ := 1024 * 1024

/-- `IO_CRLF`. -/
def ioCrlf : List Char := ['\r', '\n']

/-- `IO_LF`. -/
def ioLf : List Char := ['\n']

/-- `struct io`: the read buffer, the end of a line, `IOF_CLOSED` and the error. -/
structure Io where
  rd : Buffer
  eol : List Char
  closed : Bool := false
  error : Option (List Char) := none

namespace Io

/-- `io_create`. -/
def create (eol : List Char) : Option Io :=
  (Buffer.create ioBlocksize).map fun rd => { rd := rd, eol := eol }

/-- What `read` finds behind the bytes that are ready. -/
inductive Behind
  | nothing
  | eof
  | failure (cause : List Char)
deriving DecidableEq, Repr

/-- What `io_fill` returns: 1, 0 or -1. -/
inductive Filled
  | success
  | closed
  | error
deriving DecidableEq, Repr

/-- `io_fill` when `ready` can be read. The first argument bounds the calls of `read`, each of
which takes as much as fits. -/
def fill : ℕ → Io → List Char → Behind → Option (Filled × Io)
  | 0, _, _, _ => none
  | n + 1, io, ready, behind => do
    let rd ← io.rd.ensure ioWatermark
    let got := ready.take rd.free
    if got = [] then
      match behind with
      | .nothing => some (.success, { io with rd := rd })
      | .eof => some (.closed, { io with rd := rd })
      | .failure cause =>
        some (.error, { io with rd := rd, error := some ("io: read: ".toList ++ cause) })
    else
      let rd ← rd.add got
      fill n { io with rd := rd } (ready.drop got.length) behind

/-- `io_poll` when `ready` can be read. An io that has failed or is closed is left alone. -/
def poll (io : Io) (ready : List Char) (behind : Behind) : Option Io :=
  if io.error.isSome ∨ io.closed then some io
  else
    (fill (ready.length + 1) io ready behind).map fun r =>
      if r.1 = .closed then { r.2 with closed := true } else r.2

/-- The search of `io_readline2`: the offset of the first end of line. `memchr` passes over
what is not its first byte. -/
def findEol (eol : List Char) : List Char → Option ℕ
  | [] => none
  | c :: s =>
    if eol.head? = some c then
      -- is there enough space for the rest?
      if (c :: s).length < eol.length then none
      else if (c :: s).take eol.length = eol then some 0
      else (findEol eol s).map (· + 1)
    else (findEol eol s).map (· + 1)

/-- `io_readline2`: the bytes that are copied to `*buf`, with a NUL behind them. -/
def readline2 (io : Io) : Option (Option (List Char) × Io) :=
  if io.error.isSome then some (none, io)
  else
    let maxlen := min io.rd.size ioMaxlinelen
    if io.rd.size < io.eol.length then some (none, io)
    else
      match findEol io.eol (io.rd.contents.take maxlen) with
      | some size => do
        let (line, rd) ← if size = 0 then some ([], io.rd) else io.rd.read size
        let rd ← rd.remove io.eol.length
        some (some line, { io with rd := rd })
      | none =>
        if maxlen = ioMaxlinelen then
          some (none, { io with error := some "io: maximum line length exceeded".toList })
        else if ¬ io.closed then some (none, io)
        else do
          let (line, rd) ← io.rd.read io.rd.size
          some (some line, { io with rd := rd })

/-! ## A whole stream -/

/-- Call `io_readline2` until it gives `NULL`, at most so many times. -/
def readlines : ℕ → Io → Option (List (List Char) × Io)
  | 0, _ => none
  | n + 1, io => do
    let (line, io) ← readline2 io
    match line with
    | none => some ([], io)
    | some line =>
      let (lines, io) ← readlines n io
      some (line :: lines, io)

/-- All lines there are for now. -/
def drain (io : Io) : Option (List (List Char) × Io) := readlines (io.rd.size + 2) io

/-- Read the lines after every chunk that arrives. -/
def feed : Io → List (List Char) → Option (List (List Char) × Io)
  | io, [] => some ([], io)
  | io, chunk :: chunks => do
    let io ← poll io chunk .nothing
    let (lines, io) ← drain io
    let (lines', io) ← feed io chunks
    some (lines ++ lines', io)

/-- What has come of a stream: the lines in turn, and the error if reading failed. -/
structure Reading where
  lines : List (List Char)
  error : Option (List Char)
deriving DecidableEq, Repr

/-- A stream that arrives in `chunks`, the last bytes together with the end of it. -/
def session (eol : List Char) (chunks : List (List Char)) (last : List Char) :
    Option Reading := do
  let io ← create eol
  let (lines, io) ← feed io chunks
  let io ← poll io last .eof
  let (lines', io) ← drain io
  some ⟨lines ++ lines', io.error⟩

end Io

end Fdm
