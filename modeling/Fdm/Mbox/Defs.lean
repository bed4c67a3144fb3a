import Fdm.Fetch.Loop
import Mathlib.Logic.Function.Basic

/-!
# The mbox fetcher

`fetch-mbox.c`: the line scanner of `fetch_mbox_state_mail`, the state functions, the
commit function, and `fetch_mbox_save`, which writes an mbox anew when some of its mails
are kept and some are not.

The fetcher has the files to itself while it runs, as the locks promise; the file an mbox
was mapped from is read once, when it is opened.
-/

namespace Fdm.Mbox

open Fdm.Fetch Lib.Lines

/-- `struct fetch_mbox_mail`; `fmbox` is the place of the mbox in `data->fmboxes`. -/
structure FetchMboxMail where
  off : ℕ
  size : ℕ
  fmbox : ℕ
deriving DecidableEq, Repr

/-- `struct fetch_mbox_mbox`, without its descriptor; `base` is empty until it is mapped. -/
structure FetchMboxMbox where
  path : List Char
  reference : ℕ := 0
  total : ℕ := 0
  base : List Char := []
deriving DecidableEq, Repr

/-- An entry of `data->kept`. One that is freed without being taken off the list stays
there. -/
structure Kept where
  aux : FetchMboxMail
  freed : Bool := false
deriving DecidableEq, Repr

/-- `struct fetch_mbox_data`. `paths` is what `glob` makes of the configured patterns. -/
structure FetchMboxData where
  paths : List (List Char)
  fmboxes : List FetchMboxMbox := []
  index : ℕ := 0
  off : ℕ := 0
  kept : List Kept := []
deriving DecidableEq, Repr

/-- The state functions. -/
inductive State
  | init
  | open
  | next
  | mail
  | exit
deriving DecidableEq, Repr

/-- What has happened so far: the mails handed out, and those committed as kept and as
dropped, each in their order. -/
structure History where
  fetched : List FetchMboxMail := []
  kept : List FetchMboxMail := []
  dropped : List FetchMboxMail := []
deriving DecidableEq, Repr

/-- The data of the fetcher and the files it works on. `hist` is not in the program. -/
structure Env where
  data : FetchMboxData
  files : List Char → Option (List Char)
  fault : Bool := false
  hist : History := {}

/-- From outside only the failure of a system call is to be expected. -/
inductive Input
  | fault
deriving DecidableEq, Repr

abbrev Ctx := FetchCtx State FetchMboxMail

abbrev Result := FetchCode × Ctx × Env

/-! ## Scanning for mails -/

/-- A line without its newline. -/
def chomp (l : List Char) : List Char := l.takeWhile (· ≠ '\n')

/-- Take one `>` off a quoted `From ` line. -/
def unquote (l : List Char) : List Char :=
  if l.head? = some '>' ∧ Mail.fromPrefix <+: l.dropWhile (· = '>') then l.tail else l

/-- Where a mail ends, where the next one is to be looked for, and the text in between. -/
structure Scan where
  stop : ℕ
  off : ℕ
  text : List Char
deriving DecidableEq, Repr

/-- The loop of `fetch_mbox_state_mail` over the lines from `off` on; `big` are the sizes
from which on nothing is appended any more. -/
def scanLines (big : ℕ → Bool) : ℕ → List (List Char) → List Char → Scan
  | off, [], text => ⟨off, off, text⟩
  | off, l :: ls, text =>
    -- `data->off` is behind the line already when it turns out to start the next mail
    if off ≠ 0 ∧ Mail.fromPrefix <+: chomp l then ⟨off, off + l.length, text⟩
    else if big text.length then scanLines big (off + l.length) ls text
    else scanLines big (off + l.length) ls (text ++ unquote (chomp l) ++ ['\n'])

/-- The mail at `off` ends in a blank line. -/
def endsBlank (base : List Char) (off size : ℕ) : Bool :=
  2 ≤ size && base[off + size - 1]? = some '\n' && base[off + size - 2]? = some '\n'

/-- `fetch_mbox_state_mail` on the bytes of an mbox: the mail at `off`, the offset it leaves
in `data->off`, and the text it hands out. -/
def scanMail (big : ℕ → Bool) (base : List Char) (off i : ℕ) :
    FetchMboxMail × ℕ × List Char :=
  let s := scanLines big off (lines (base.drop off)) []
  let size := s.stop - off
  if endsBlank base off size then (⟨off, size - 2, i⟩, s.off, s.text.take (s.text.length - 2))
  else (⟨off, size, i⟩, s.off, s.text)

/-! ## Saving -/

/-- How `fetch_mbox_save` ends; `fatal` is for `fatalx` and for reading a kept mail that an earlier
call has freed. -/
inductive Saved
  | ok (e : Env)
  | error (e : Env)
  | fatal (e : Env)

/-- Change an mbox. -/
def setFmbox (i : ℕ) (fmbox : FetchMboxMbox) (e : Env) : Env :=
  { e with data := { e.data with fmboxes := e.data.fmboxes.set i fmbox } }

/-- The loop behind `free_all`. -/
def freeAll (i : ℕ) (fmbox : FetchMboxMbox) (e : Env) : Saved :=
  if e.data.kept.any Kept.freed then .fatal e
  else
    let reference := fmbox.reference - e.data.kept.countP fun k => k.aux.fmbox = i
    let kept := e.data.kept.map fun k => if k.aux.fmbox = i then { k with freed := true } else k
    let e := setFmbox i { fmbox with reference := reference }
      { e with data := { e.data with kept := kept } }
    if reference ≠ 0 then .fatal e else .ok e

/-- What is written for a kept mail. -/
def entryBytes (base : List Char) (aux : FetchMboxMail) : List Char :=
  (base.drop aux.off).take aux.size ++ ['\n']

/-- `fetch_mbox_save`. It frees a kept mail and then takes it from the list: that `TAILQ_REMOVE`
reads the links of the freed mail is taken as harmless, as nothing is allocated in between. -/
def save (i : ℕ) (fmbox : FetchMboxMbox) (e : Env) : Saved :=
  if fmbox.reference = 0 then
    if fmbox.total ≠ 0 then
      if e.fault then .error e
      else freeAll i fmbox { e with files := Function.update e.files fmbox.path (some []) }
    else freeAll i fmbox e
  else if fmbox.reference = fmbox.total then freeAll i fmbox e
  else if e.fault then .error e
  else if e.data.kept.any Kept.freed then .fatal e
  else
    let mine := (e.data.kept.map Kept.aux).filter fun aux => aux.fmbox = i
    let others := e.data.kept.filter fun k => k.aux.fmbox ≠ i
    freeAll i { fmbox with reference := fmbox.reference - mine.length }
      { e with
        data := { e.data with kept := others }
        files := Function.update e.files fmbox.path
          (some (mine.flatMap (entryBytes fmbox.base))) }

/-- The loop of `fetch_mbox_state_exit`. -/
def saveAll : List ℕ → Env → Saved
  | [], e => .ok e
  | i :: is, e =>
    match e.data.fmboxes[i]? with
    | none => .fatal e
    | some fmbox =>
      match save i fmbox e with
      | .ok e => saveAll is e
      | .error e => .error e
      | .fatal e => .fatal e

/-! ## Commit and abort -/

/-- `fetch_mbox_free`, the `auxfree` function of the mails. -/
def fetchMboxFree (m : Mail FetchMboxMail) (e : Env) : Env :=
  match m.auxdata with
  | none => e
  | some aux =>
    match e.data.fmboxes[aux.fmbox]? with
    | none => e
    | some fmbox => setFmbox aux.fmbox { fmbox with reference := fmbox.reference - 1 } e

/-- `fetch_mbox_commit`. A kept mail does not free its `auxdata` any more. -/
def commit (m : Mail FetchMboxMail) (e : Env) : FetchCode × Mail FetchMboxMail × Env :=
  match m.auxdata, m.decision with
  | some aux, .keep =>
    (.again, { m with auxdata := none },
      { e with
        data := { e.data with kept := e.data.kept ++ [⟨aux, false⟩] }
        hist := { e.hist with kept := e.hist.kept ++ [aux] } })
  | none, .keep => (.crash, m, e)
  | some aux, .drop =>
    (.again, m, { e with hist := { e.hist with dropped := e.hist.dropped ++ [aux] } })
  | none, .drop => (.again, m, e)

/-- `fetch_mbox_abort`. -/
def abort (e : Env) : Env := { e with data := { e.data with fmboxes := [] } }

/-! ## The state functions -/

/-- `fetch_mbox_state_init` with `fetch_mbox_make`. -/
def stateInit (fctx : Ctx) (e : Env) : Result :=
  if e.fault then (.error, fctx, e)
  else if e.data.paths = [] then (.crash, fctx, e)
  else
    (.again, { fctx with state := .open },
      { e with data := { e.data with
          fmboxes := e.data.paths.map fun path => { path := path }
          index := 0
          kept := [] } })

/-- `fetch_mbox_state_open`. -/
def stateOpen (fctx : Ctx) (e : Env) : Result :=
  match e.data.fmboxes[e.data.index]? with
  | none => (.crash, fctx, e)
  | some fmbox =>
    match e.files fmbox.path with
    | none => (.error, fctx, e)
    | some base =>
      if e.fault then (.error, fctx, e)
      else if base = [] then (.again, { fctx with state := .next }, e)
      else if base.length < 5 then (.error, fctx, e)
      else
        let e := setFmbox e.data.index { fmbox with base := base }
          { e with data := { e.data with off := 0 } }
        if ¬ Mail.fromPrefix <+: base then (.error, fctx, e)
        else (.again, { fctx with state := .mail }, e)

/-- `fetch_mbox_state_next`. -/
def stateNext (fctx : Ctx) (e : Env) : Result :=
  let n := e.data.fmboxes.length
  let index := if e.data.index < n then e.data.index + 1 else e.data.index
  let e := { e with data := { e.data with index := index } }
  if index = n then
    if !fctx.flags.empty then (.block, fctx, e) else (.again, { fctx with state := .exit }, e)
  else (.again, { fctx with state := .open }, e)

/-- `fetch_mbox_state_mail`. -/
def stateMail (conf : Conf) (fctx : Ctx) (e : Env) : Result :=
  match e.data.fmboxes[e.data.index]? with
  | none => (.crash, fctx, e)
  | some fmbox =>
    if e.data.off = fmbox.base.length then (.again, { fctx with state := .next }, e)
    else if e.fault then (.error, fctx, e)
    else
      let (aux, off, text) :=
        scanMail (fun n => decide (conf.maxSize < n)) fmbox.base e.data.off e.data.index
      (.mail, { fctx with mail := { fctx.mail with data := text, auxdata := some aux } },
        setFmbox e.data.index
          { fmbox with reference := fmbox.reference + 1, total := fmbox.total + 1 }
          { e with
            data := { e.data with off := off }
            hist := { e.hist with fetched := e.hist.fetched ++ [aux] } })

/-- `fetch_mbox_state_exit`. -/
def stateExit (fctx : Ctx) (e : Env) : Result :=
  match saveAll (List.range e.data.fmboxes.length) e with
  | .ok e => (.exit, fctx, abort e)
  | .error e => (.error, fctx, e)
  | .fatal e => (.crash, fctx, e)

/-- `fctx->state(a, fctx)`. -/
def state (conf : Conf) (fctx : Ctx) (e : Env) : Result :=
  match fctx.state with
  | .init => stateInit fctx e
  | .open => stateOpen fctx e
  | .next => stateNext fctx e
  | .mail => stateMail conf fctx e
  | .exit => stateExit fctx e

/-- The effect of an input. -/
def input : Input → Env → Env
  | .fault, e => { e with fault := true }

/-- `fetch_mbox`. -/
def fetcher (conf : Conf) : Fetcher Env State FetchMboxMail Input where
  first := .init
  state := state conf
  commit := commit
  abort := abort
  auxfree := fetchMboxFree
  input := input

/-- Where a run starts: the mboxes to visit, and the files there are. -/
def begin (conf : Conf) (poll : Bool) (paths : List (List Char))
    (files : List Char → Option (List Char)) : Loop Env State FetchMboxMail :=
  start (fetcher conf) { poll := poll } { data := { paths := paths }, files := files }

end Fdm.Mbox
