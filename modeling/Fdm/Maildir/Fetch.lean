import Fdm.Fetch.Loop

/-!
# The maildir fetcher

`fetch-maildir.c`: the paths to visit, the state functions, and the commit function, which puts the
path of a dropped mail on a list. The files on the list are unlinked when the next path is come to.
The results of the system calls are those of a `World`, which may be another one at each call of
the fetcher.
-/

namespace Fdm.FetchMaildir

open Fdm.Fetch

/-- `d_type`. -/
inductive DType
  | reg
  | unknown
  | other
deriving DecidableEq, Repr

/-- `struct dirent`. -/
structure Dirent where
  name : List Char
  type : DType := .reg
deriving DecidableEq, Repr

/-- `struct stat`. -/
structure Stat where
  isReg : Bool := true
  isDir : Bool := false
  size : ℕ
deriving DecidableEq, Repr

/-- The results of the calls. -/
structure World where
  glob : List Char → Option (List (List Char))
  /-- `opendir`, and the entries that `readdir` gives. -/
  opendir : List Char → Option (List Dirent)
  closedir : Bool := true
  stat : List Char → Option Stat
  mailOpen : Bool := true
  /-- The bytes of a file that can be opened and read. -/
  read : List Char → Option (List Char)
  unlink : List Char → Bool

/-- `struct fetch_maildir_data`. -/
structure FetchMaildirData where
  maildirs : List (List Char)
  paths : List (List Char) := []
  total : ℕ := 0
  index : ℕ := 0
  dirp : Option (List Dirent) := none
  unlinklist : List (List Char) := []
deriving DecidableEq, Repr

/-- What has happened so far: the files whose mails were handed out, the commits, and the files that
were unlinked. -/
structure History where
  handed : List (List Char) := []
  committed : List (List Char × Decision) := []
  unlinked : List (List Char) := []
  /-- A null pointer has been read. -/
  crashed : Bool := false
deriving DecidableEq, Repr

/-- The data of the fetcher and the world. `hist` is not in the program. -/
structure Env where
  data : FetchMaildirData
  world : World
  hist : History := {}

/-- The state functions. -/
inductive State
  | init
  | next
  | open
  | mail
deriving DecidableEq, Repr

/-- `auxdata` is the path in `struct fetch_maildir_mail`. -/
abbrev Ctx := FetchCtx State (List Char)

abbrev Result := FetchCode × Ctx × Env

/-- Undefined behaviour. -/
def Env.crash (e : Env) : Env := { e with hist := { e.hist with crashed := true } }

/-! ## Paths -/

/-- The paths of a maildir, when both are directories. -/
def dirPaths (w : World) (p : List Char) : List (List Char) :=
  let isDir (path : List Char) : Bool := ((w.stat path).map Stat.isDir).getD false
  let cur := p ++ ['/', 'c', 'u', 'r']
  let new := p ++ ['/', 'n', 'e', 'w']
  if isDir cur && isDir new then [cur, new] else []

/-- `fetch_maildir_makepaths`. -/
def makePaths (w : World) : List (List Char) → Except FetchCode (List (List Char))
  | [] => .ok []
  | p :: ps =>
    match w.glob p with
    | none => .error .error
    | some [] => .error .crash
    | some gs => (makePaths w ps).map fun paths => gs.flatMap (dirPaths w) ++ paths

section

variable (maxPathLen : ℕ)

/-- `ppath` of an entry. -/
def entryPath (path name : List Char) : Option (List Char) :=
  let entry := path ++ ['/'] ++ name
  if maxPathLen ≤ entry.length then none else some entry

/-- The mails that `fetch_maildir_poll` counts in one directory. -/
def countEntries (w : World) (path : List Char) : List Dirent → Option ℕ
  | [] => some 0
  | dp :: dps =>
    let rest (n : ℕ) : Option ℕ := (countEntries w path dps).map (n + ·)
    match dp.type with
    | .reg => rest 1
    | .other => rest 0
    | .unknown =>
      ((entryPath maxPathLen path dp.name).bind w.stat).bind fun sb =>
        rest (if sb.isReg then 1 else 0)

/-- `fetch_maildir_poll`. -/
def poll (w : World) : List (List Char) → Option ℕ
  | [] => some 0
  | path :: paths =>
    (w.opendir path).bind fun dps =>
      (countEntries maxPathLen w path dps).bind fun n =>
        if w.closedir then (poll w paths).map (n + ·) else none

/-- What `readdir` comes to next: the end, an entry that cannot be looked at, or a file. -/
inductive Next
  | done
  | error
  | file (name : List Char) (size : ℕ) (rest : List Dirent)
deriving DecidableEq, Repr

/-- The loop at `restart`. -/
def nextFile (w : World) (path : List Char) : List Dirent → Next
  | [] => .done
  | dp :: dps =>
    match entryPath maxPathLen path dp.name with
    | none => .error
    | some name =>
      match w.stat name with
      | none => .error
      | some sb => if sb.isReg then .file name sb.size dps else nextFile w path dps

end

/-! ## Commit and abort -/

/-- `fetch_maildir_commit`. -/
def commit (m : Mail (List Char)) (e : Env) : FetchCode × Mail (List Char) × Env :=
  match m.decision, m.auxdata with
  | .drop, some path =>
    (.again, m,
      { e with
        data := { e.data with unlinklist := e.data.unlinklist ++ [path] }
        hist := { e.hist with committed := e.hist.committed ++ [(path, .drop)] } })
  | .drop, none => (.crash, m, e.crash)
  | .keep, some path =>
    (.again, m, { e with hist := { e.hist with committed := e.hist.committed ++ [(path, .keep)] } })
  | .keep, none => (.again, m, e)

/-- `fetch_maildir_abort`. -/
def abort (e : Env) : Env :=
  { e with data := { e.data with unlinklist := [], dirp := none, paths := [] } }

/-! ## The state functions -/

section

variable (conf : Conf) (maxPathLen : ℕ)

/-- `fetch_maildir_state_init`. -/
def stateInit (fctx : Ctx) (e : Env) : Result :=
  match makePaths e.world e.data.maildirs with
  | .error code => (code, fctx, e)
  | .ok [] => (.error, fctx, e)
  | .ok paths =>
    let e :=
      { e with data := { e.data with paths := paths, index := 0, dirp := none, unlinklist := [] } }
    if fctx.flags.poll then
      match poll maxPathLen e.world paths with
      | none => (.error, fctx, e)
      | some total => (.exit, fctx, { e with data := { e.data with total := total, paths := [] } })
    else (.again, { fctx with state := .open }, e)

/-- The files of a list that are unlinked, and whether this has worked for all of them. -/
def unlinkAll (w : World) : List (List Char) → List (List Char) × Bool
  | [] => ([], true)
  | path :: paths =>
    if w.unlink path then
      let rest := unlinkAll w paths
      (path :: rest.1, rest.2)
    else ([], false)

/-- `fetch_maildir_state_next`. -/
def stateNext (fctx : Ctx) (e : Env) : Result :=
  let unlinked := unlinkAll e.world e.data.unlinklist
  let e := { e with hist := { e.hist with unlinked := e.hist.unlinked ++ unlinked.1 } }
  if !unlinked.2 then (.error, fctx, e)
  else
    let n := e.data.paths.length
    let index := if e.data.index < n then e.data.index + 1 else e.data.index
    let e := { e with data := { e.data with unlinklist := [], index := index } }
    if index = n then
      if !fctx.flags.empty then (.block, fctx, e)
      else (.exit, fctx, { e with data := { e.data with paths := [] } })
    else (.again, { fctx with state := .open }, e)

/-- `fetch_maildir_state_open`. -/
def stateOpen (fctx : Ctx) (e : Env) : Result :=
  match e.data.paths[e.data.index]? with
  | none => (.crash, fctx, e.crash)
  | some path =>
    match e.world.opendir path with
    | none => (.error, fctx, e)
    | some dps =>
      (.again, { fctx with state := .mail }, { e with data := { e.data with dirp := some dps } })

/-- Read the mail from a file. When it is too big its bytes are not read; `m->size` is `SIZE_MAX`
then, and here the size of the file. -/
def readMail (name : List Char) (size : ℕ) (fctx : Ctx) (e : Env) : Result :=
  if !e.world.mailOpen then (.error, fctx, e)
  else if size = 0 then (.mail, { fctx with mail := { fctx.mail with data := [] } }, e)
  else if conf.maxSize < size then
    (.mail, { fctx with mail := { fctx.mail with data := List.replicate size '\x00' } }, e)
  else
    match e.world.read name with
    | none => (.error, fctx, e)
    | some bytes =>
      if bytes.length < size then (.error, fctx, e)
      else
        (.mail, { fctx with mail := { fctx.mail with data := bytes.take size, auxdata := some name } },
          { e with hist := { e.hist with handed := e.hist.handed ++ [name] } })

/-- `fetch_maildir_state_mail`. -/
def stateMail (fctx : Ctx) (e : Env) : Result :=
  match e.data.paths[e.data.index]?, e.data.dirp with
  | some path, some dps =>
    match nextFile maxPathLen e.world path dps with
    | .done =>
      if !e.world.closedir then (.error, fctx, e)
      else (.again, { fctx with state := .next }, { e with data := { e.data with dirp := none } })
    | .error => (.error, fctx, e)
    | .file name size rest =>
      readMail conf name size fctx { e with data := { e.data with dirp := some rest } }
  | _, _ => (.crash, fctx, e.crash)

/-- `fctx->state(a, fctx)`. -/
def state (fctx : Ctx) (e : Env) : Result :=
  match fctx.state with
  | .init => stateInit maxPathLen fctx e
  | .next => stateNext fctx e
  | .open => stateOpen fctx e
  | .mail => stateMail conf maxPathLen fctx e

/-- `fetch_maildir`. -/
def fetcher : Fetcher Env State (List Char) World where
  first := .init
  state := state conf maxPathLen
  commit := commit
  abort := abort
  auxfree := fun _ e => e
  input := fun w e => { e with world := w }

/-- Where a run starts. -/
def begin (poll : Bool) (maildirs : List (List Char)) (w : World) :
    Loop Env State (List Char) :=
  start (fetcher conf maxPathLen) { poll := poll } { data := { maildirs := maildirs }, world := w }

end

end Fdm.FetchMaildir
