import Fdm.Fetch.Loop

/-!
# Fetchers that talk to a server

What the POP3, IMAP and NNTP fetchers have in common: lines that arrive from the server,
calls that may fail, and perhaps a cache file. A fetcher reads a line with `getln`, which
returns at once when there is none.
-/

namespace Fdm.Fetch

/-- What a read finds: a line and what the line buffer still holds behind its terminator,
up to the next NUL; or a broken connection. -/
inductive Received
  | line (s stale : List Char)
  | broken
deriving DecidableEq, Repr

/-- The data of a fetcher and what it works on: the lines received and not yet read,
whether the next call that can fail does, and the cache file. `hist` is not in the
program. It records what has happened, for the theorems to talk about. -/
structure Wire (D H : Type) where
  data : D
  inbuf : List Received := []
  fault : Bool := false
  disk : Option (List Char) := none
  hist : H

/-- What may happen outside: a line arrives, the connection breaks, the next call that can
fail does. -/
inductive Input
  | line (s stale : List Char)
  | broken
  | fault
deriving DecidableEq, Repr

/-- A string of C: what is in front of the first NUL. -/
def cstr (s : List Char) : List Char := s.takeWhile (· ≠ '\x00')

variable {D H ς α : Type}

/-- The effect of an input. -/
def input : Input → Wire D H → Wire D H
  | .line s stale, e => { e with inbuf := e.inbuf ++ [.line (cstr s) (cstr stale)] }
  | .broken, e => { e with inbuf := e.inbuf ++ [.broken] }
  | .fault, e => { e with fault := true }

/-- `getln` and what every caller does first: return `FETCH_ERROR` when it fails and
`FETCH_BLOCK` when there is no line yet. -/
def getln (fctx : FetchCtx ς α) (e : Wire D H)
    (k : List Char → List Char → Wire D H → FetchCode × FetchCtx ς α × Wire D H) :
    FetchCode × FetchCtx ς α × Wire D H :=
  match e.inbuf with
  | [] => (.block, fctx, e)
  | .broken :: _ => (.error, fctx, e)
  | .line s stale :: rest => k s stale { e with inbuf := rest }

/-- A line of the server is not there yet, cannot be read, or goes to the rest of the state
function. -/
theorem getln_cases {P : FetchCode × FetchCtx ς α × Wire D H → Prop} {fctx : FetchCtx ς α}
    {e : Wire D H}
    {k : List Char → List Char → Wire D H → FetchCode × FetchCtx ς α × Wire D H}
    (hblock : P (.block, fctx, e)) (herror : P (.error, fctx, e))
    (hk : ∀ line stale rest, e.inbuf = .line line stale :: rest →
      P (k line stale { e with inbuf := rest })) : P (getln fctx e k) := by
  unfold getln
  split
  · exact hblock
  · exact herror
  · next line stale rest heq => exact hk line stale rest heq

/-- The server sends a line. -/
def srv (s : List Char) : Act Input := .input (.line s [])

end Fdm.Fetch
