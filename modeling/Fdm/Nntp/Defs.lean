import Fdm.Fetch.Wire
import Fdm.Lib.Scanf
import Mathlib.Data.List.Basic

/-!
# The NNTP fetcher

`fetch-nntp.c`: replies and their codes, the cache file, the state functions from
`fetch_nntp_state_connect` to `fetch_nntp_state_quit`, and the commit function, which
rewrites the cache file.

The program hangs nothing on the mails it fetches. Here `auxdata` has the serial number of
the article, its place among the articles announced, for the theorems to talk about.
-/

namespace Fdm.Nntp

open Fdm.Fetch Lib.Scanf

/-- `struct fetch_nntp_group`. -/
structure FetchNntpGroup where
  name : List Char
  ignore : Bool := false
  size : ℕ := 0
  last : ℕ := 0
  id : Option (List Char) := none
deriving DecidableEq, Repr

/-- `struct fetch_nntp_data`. The address of the server, which ends up in the tags of the
mails, is left out. -/
structure FetchNntpData where
  user : Option (List Char) := none
  pass : Option (List Char) := none
  names : List (List Char) := []
  group : ℕ := 0
  groups : List FetchNntpGroup := []
  flushing : Bool := false
deriving DecidableEq, Repr

/-- The state functions. -/
inductive State
  | connect
  | connected
  | auth1
  | auth2
  | switch
  | group
  | reset
  | stat
  | wait
  | next
  | article
  | line
  | quit
deriving DecidableEq, Repr

/-- The commands. -/
inductive Cmd
  | user (user : List Char)
  | pass (pass : Option (List Char))
  | group (name : List Char)
  | stat (n : ℕ)
  | next
  | article
  | quit
deriving DecidableEq, Repr

/-- An article that the server has announced in its reply to `NEXT`. -/
structure Article where
  group : ℕ
  n : ℕ
  id : List Char
deriving DecidableEq, Repr

/-- A cache file written, and what had happened by then. -/
structure Save where
  file : List Char
  groups : List FetchNntpGroup
  seen : List Article
  committed : List ℕ
  refused : List ℕ
deriving DecidableEq, Repr

/-- What has happened so far: the commands, the groups as they were loaded, the articles
announced, the serial numbers of those that were committed or that the server would not
give out, the groups reset, and the cache files written. -/
structure History where
  sent : List Cmd := []
  loaded : List FetchNntpGroup := []
  seen : List Article := []
  committed : List ℕ := []
  refused : List ℕ := []
  resets : List ℕ := []
  saves : List Save := []
deriving DecidableEq, Repr

/-- The data of the fetcher and what it works on. -/
abbrev Env := Wire FetchNntpData History

abbrev Ctx := FetchCtx State ℕ

abbrev Result := FetchCode × Ctx × Env

/-! ## Replies -/

/-- `fetch_nntp_code`. -/
def fetchNntpCode (line : List Char) : Option ℕ :=
  match strtonum 999 (line.takeWhile Char.isDigit) with
  | none => none
  | some n => if n < 100 then none else some n

/-- What the loop of `fetch_nntp_check` finds in the lines that have arrived: informative
replies are skipped. -/
inductive Reply
  | block (rest : List Received)
  | error (rest : List Received)
  | code (line : List Char) (code : ℕ) (rest : List Received)
deriving DecidableEq, Repr

def nextReply : List Received → Reply
  | [] => .block []
  | .broken :: rest => .block (.broken :: rest)
  | .line s _ :: rest =>
    match fetchNntpCode s with
    | none => .error rest
    | some code => if 100 ≤ code ∧ code ≤ 199 then nextReply rest else .code s code rest

/-- `fetch_nntp_check`: return `FETCH_ERROR` when it fails and `FETCH_BLOCK` when there is
no reply yet; `bad` is for a code that is not on the list. -/
def checkElse (bad : FetchCode) (codes : List ℕ) (fctx : Ctx) (e : Env)
    (k : List Char → ℕ → Env → Result) : Result :=
  match nextReply e.inbuf with
  | .block rest => (.block, fctx, { e with inbuf := rest })
  | .error rest => (.error, fctx, { e with inbuf := rest })
  | .code line code rest =>
    if code ∈ codes then k line code { e with inbuf := rest }
    else (bad, fctx, { e with inbuf := rest })

/-- `fetch_nntp_check` with as many codes as it is told to read. -/
def check (codes : List ℕ) (fctx : Ctx) (e : Env) (k : List Char → ℕ → Env → Result) : Result :=
  checkElse .error codes fctx e k

/-- `"223 %u "`. -/
def line223 : List Dir := lits ['2', '2', '3'] ++ [.space, u32, .space]

/-- `fetch_nntp_parse223`: the number of an article and its id. -/
def parse223 (line : List Char) : Option (ℕ × List Char) :=
  match sscanf line223 line, line.dropWhile (· ≠ '<') with
  | [n], _ :: ptr => if '>' ∈ ptr then some (n, ptr.takeWhile (· ≠ '>')) else none
  | _, _ => none

/-- `io_writeline`, followed by `fctx->state = s; return (FETCH_BLOCK);`. -/
def writeline (cmd : Cmd) (s : State) (fctx : Ctx) (e : Env) : Result :=
  (.block, { fctx with state := s },
    { e with hist := { e.hist with sent := e.hist.sent ++ [cmd] } })

/-! ## The cache file -/

/-- What `fetch_nntp_load` does with an entry: put it into the group of that name, or add
one that is not fetched. -/
def fillGroup (name : List Char) (last : ℕ) (id : List Char) :
    List FetchNntpGroup → List FetchNntpGroup
  | [] => [{ name := name, ignore := true, last := last, id := some id }]
  | g :: gs =>
    if g.name = name then { g with last := last, id := some id } :: gs
    else g :: fillGroup name last id gs

/-- The loop of `fetch_nntp_load`; the first argument bounds the number of entries. -/
def loadEntries : ℕ → List Char → List FetchNntpGroup → Option (List FetchNntpGroup)
  | 0, _, _ => none
  | fuel + 1, s, gs =>
    match scanNum 64 s with
    -- the file may end in front of a name only
    | none => if (takeSign (s.dropWhile isSpace)).2 = [] then some gs else none
    | some (namelen, rest) =>
      match takeBytes namelen (rest.dropWhile isSpace) with
      | none => none
      | some (name, rest) =>
        match scanNum 32 rest with
        | none => none
        | some (last, rest) =>
          match scanNum 64 rest with
          | none => none
          | some (idlen, rest) =>
            match takeBytes idlen (rest.dropWhile isSpace) with
            | none => none
            | some (id, rest) => loadEntries fuel rest (fillGroup (cstr name) last (cstr id) gs)

/-- `fetch_nntp_load` on the contents of the cache file. -/
def loadFile (s : List Char) (gs : List FetchNntpGroup) : Option (List FetchNntpGroup) :=
  loadEntries (s.length + 1) s gs

/-- `fetch_nntp_load`, from the groups that are configured; a cache file need not exist. -/
def load (names : List (List Char)) (disk : Option (List Char)) : Option (List FetchNntpGroup) :=
  let groups := names.map fun name => { name := name }
  match disk with
  | none => some groups
  | some s => loadFile s groups

/-- The line of a group in the cache file. -/
def saveEntry (g : FetchNntpGroup) : List Char :=
  match g.id with
  | none => []
  | some id =>
    decimal g.name.length ++ [' '] ++ g.name ++ [' '] ++ decimal g.last ++ [' ']
      ++ decimal id.length ++ [' '] ++ id ++ ['\n']

/-- The cache file `fetch_nntp_save` writes. -/
def saveFile (gs : List FetchNntpGroup) : List Char := gs.flatMap saveEntry

/-- `fetch_nntp_save`: `none` when it fails. -/
def save (e : Env) : Option Env :=
  if e.fault then none
  else
    let s := saveFile e.data.groups
    some { e with
      disk := some s
      hist := { e.hist with
        saves := e.hist.saves ++
          [⟨s, e.data.groups, e.hist.seen, e.hist.committed, e.hist.refused⟩] } }

/-! ## Commit and abort -/

/-- `fetch_nntp_commit`. -/
def commit (m : Mail ℕ) (e : Env) : FetchCode × Mail ℕ × Env :=
  let committed := e.hist.committed ++ m.auxdata.toList
  match save { e with hist := { e.hist with committed := committed } } with
  | none => (.error, m, e)
  | some e => (.again, m, e)

/-- `fetch_nntp_abort`. -/
def abort (e : Env) : Env :=
  { e with data := { e.data with groups := [] }, inbuf := [] }

/-! ## The state functions -/

/-- The first group from `i` on that is not ignored. -/
def activeFrom (groups : List FetchNntpGroup) (i : ℕ) : Option ℕ :=
  ((groups.drop i).findIdx? fun g => !g.ignore).map (i + ·)

/-- `fetch_nntp_state_connect`. -/
def stateConnect (fctx : Ctx) (e : Env) : Result :=
  if e.fault then (.error, fctx, e)
  else
    match load e.data.names e.disk with
    | none => (.error, fctx, e)
    | some [] => (.crash, fctx, e)
    | some (g :: gs) =>
      match activeFrom (g :: gs) 0 with
      | none => (.error, fctx, { e with data := { e.data with groups := g :: gs } })
      | some group =>
        (.block, { fctx with state := .connected },
          { e with
            inbuf := []
            data := { e.data with groups := g :: gs, group := group }
            hist := { e.hist with loaded := g :: gs } })

/-- `fetch_nntp_state_connected`. -/
def stateConnected (fctx : Ctx) (e : Env) : Result :=
  check [200, 201] fctx e fun _ _ e =>
    match e.data.user, e.data.pass with
    | some user, some _ => writeline (.user user) .auth1 fctx e
    | _, _ => (.again, { fctx with state := .group }, e)

/-- `fetch_nntp_state_auth1`. -/
def stateAuth1 (fctx : Ctx) (e : Env) : Result :=
  check [381] fctx e fun _ _ e => writeline (.pass e.data.pass) .auth2 fctx e

/-- `fetch_nntp_state_auth2`, which announces two codes to `fetch_nntp_check` and passes
one: any other reply makes it read an argument that is not there. -/
def stateAuth2 (fctx : Ctx) (e : Env) : Result :=
  checkElse .crash [281] fctx e fun _ _ e => (.again, { fctx with state := .group }, e)

/-- `fetch_nntp_state_switch`. -/
def stateSwitch (fctx : Ctx) (e : Env) : Result :=
  match activeFrom e.data.groups (e.data.group + 1) with
  | none =>
    writeline .quit .quit fctx
      { e with data := { e.data with group := e.data.groups.length } }
  | some group =>
    (.again, { fctx with state := .group }, { e with data := { e.data with group := group } })

/-- `group = ARRAY_ITEM(&data->groups, data->group);`. -/
def withGroup (fctx : Ctx) (e : Env) (k : FetchNntpGroup → Result) : Result :=
  match e.data.groups[e.data.group]? with
  | none => (.crash, fctx, e)
  | some group => k group

/-- A change to the group that is being fetched. -/
def setGroup (group : FetchNntpGroup) (e : Env) : Env :=
  { e with data := { e.data with groups := e.data.groups.set e.data.group group } }

/-- `fetch_nntp_state_group`. -/
def stateGroup (fctx : Ctx) (e : Env) : Result :=
  withGroup fctx e fun group => writeline (.group group.name) .stat fctx e

/-- `fetch_nntp_state_reset`. -/
def stateReset (fctx : Ctx) (e : Env) : Result :=
  withGroup fctx e fun group =>
    (.again, { fctx with state := .group },
      setGroup { group with id := none, last := 0 }
        { e with hist := { e.hist with resets := e.hist.resets ++ [e.data.group] } })

/-- `"211 %u %*u %u"`. -/
def line211 : List Dir :=
  lits ['2', '1', '1'] ++ [.space, u32, .space, .num 32 false, .space, u32]

/-- `fetch_nntp_state_stat`. -/
def stateStat (fctx : Ctx) (e : Env) : Result :=
  withGroup fctx e fun group =>
    check [211] fctx e fun line _ e =>
      match sscanf line211 line with
      | [size, n] =>
        if n < group.last then
          (.again, { fctx with state := .reset }, setGroup { group with size := size } e)
        else if group.last ≠ 0 then
          writeline (.stat group.last) .wait fctx
            (setGroup { group with size := n - group.last } e)
        else
          writeline .next .next fctx (setGroup { group with size := n - group.last } e)
      | size :: _ => (.error, fctx, setGroup { group with size := size } e)
      | [] => (.error, fctx, e)

/-- `fetch_nntp_state_wait`. -/
def stateWait (fctx : Ctx) (e : Env) : Result :=
  withGroup fctx e fun group =>
    check [223, 423] fctx e fun line code e =>
      if code = 223 then
        match parse223 line, group.id with
        | none, _ => (.error, fctx, e)
        | some (n, id), id' =>
          if n ≠ group.last then (.error, fctx, e)
          else if id' = none then (.crash, fctx, e)
          else if id' ≠ some id then (.again, { fctx with state := .reset }, e)
          else writeline .next .next fctx e
      else writeline .next .next fctx e

/-- `fetch_nntp_state_next`. -/
def stateNext (fctx : Ctx) (e : Env) : Result :=
  withGroup fctx e fun group =>
    check [223, 420, 421] fctx e fun line code e =>
      if code = 420 ∨ code = 421 then (.again, { fctx with state := .switch }, e)
      else
        match parse223 line with
        | none => (.error, fctx, e)
        | some (n, id) =>
          writeline .article .article fctx
            (setGroup { group with last := n, id := some id }
              { e with hist := { e.hist with
                  seen := e.hist.seen ++ [⟨e.data.group, n, id⟩] } })

/-- `fetch_nntp_state_article`. -/
def stateArticle (fctx : Ctx) (e : Env) : Result :=
  withGroup fctx e fun _ =>
    check [220, 423, 430] fctx e fun _ code e =>
      if code = 423 ∨ code = 430 then
        writeline .next .next fctx
          { e with hist := { e.hist with
              refused := e.hist.refused ++ [e.hist.seen.length - 1] } }
      else if e.fault then (.error, fctx, e)
      else
        (.again,
          { fctx with
            state := .line
            mail := { fctx.mail with data := [], auxdata := some (e.hist.seen.length - 1) } },
          { e with data := { e.data with flushing := false } })

/-- What the loop of `fetch_nntp_state_line` makes of the lines that have arrived. -/
inductive Reading
  | more (rest : List Received) (m : Mail ℕ) (flushing : Bool)
  | failed (m : Mail ℕ)
  | ended (rest : List Received) (m : Mail ℕ) (flushing : Bool)
deriving DecidableEq, Repr

def readLines (conf : Conf) (fault : Bool) : List Received → Mail ℕ → Bool → Reading
  | [], m, flushing => .more [] m flushing
  | .broken :: rest, m, flushing => .more (.broken :: rest) m flushing
  | .line s _ :: rest, m, flushing =>
    if s = ['.'] then .ended rest m flushing
    else if flushing then readLines conf fault rest m flushing
    else if fault then .failed m
    else
      let m := m.appendLine (if s.head? = some '.' then s.tail else s)
      readLines conf fault rest m (decide (conf.maxSize < m.size))

/-- `fetch_nntp_state_line`. -/
def stateLine (conf : Conf) (fctx : Ctx) (e : Env) : Result :=
  match readLines conf e.fault e.inbuf fctx.mail e.data.flushing with
  | .more rest m flushing =>
    (.block, { fctx with mail := m },
      { e with inbuf := rest, data := { e.data with flushing := flushing } })
  | .failed m => (.error, { fctx with mail := m }, e)
  | .ended rest m flushing =>
    let r := writeline .next .next { fctx with mail := m }
      { e with inbuf := rest, data := { e.data with flushing := flushing } }
    (.mail, r.2)

/-- `fetch_nntp_state_quit`. -/
def stateQuit (fctx : Ctx) (e : Env) : Result :=
  check [205] fctx e fun _ _ e => (.exit, fctx, abort e)

/-- `fctx->state(a, fctx)`. -/
def state (conf : Conf) (fctx : Ctx) (e : Env) : Result :=
  match fctx.state with
  | .connect => stateConnect fctx e
  | .connected => stateConnected fctx e
  | .auth1 => stateAuth1 fctx e
  | .auth2 => stateAuth2 fctx e
  | .switch => stateSwitch fctx e
  | .group => stateGroup fctx e
  | .reset => stateReset fctx e
  | .stat => stateStat fctx e
  | .wait => stateWait fctx e
  | .next => stateNext fctx e
  | .article => stateArticle fctx e
  | .line => stateLine conf fctx e
  | .quit => stateQuit fctx e

/-- `fetch_nntp`. -/
def fetcher (conf : Conf) : Fetcher Env State ℕ Input where
  first := .connect
  state := state conf
  commit := commit
  abort := abort
  auxfree := fun _ e => e
  input := input

/-- Where a run starts: the account's settings and the cache file. -/
def begin (conf : Conf) (poll : Bool) (user pass : Option (List Char))
    (names : List (List Char)) (disk : Option (List Char)) : Loop Env State ℕ :=
  start (fetcher conf) { poll := poll }
    { data := { user := user, pass := pass, names := names }, disk := disk, hist := {} }

end Fdm.Nntp
