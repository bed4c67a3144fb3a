import Fdm.Fetch.Wire
import Fdm.Lib.KeyedTree
import Fdm.Lib.Scanf
import Mathlib.Data.Char
import Mathlib.Data.List.Lex

/-!
# The POP3 fetcher

`pop3-common.c`: the state functions from `pop3_state_init` to `pop3_state_quit`, the
commit function and the cache file.

* `FetchPop3Data` is `struct fetch_pop3_data`, and `Env` is that structure together with
  what the functions work on.
* `History` is not in the program. It records what was sent, listed, committed and saved,
  for the theorems to talk about; nothing else reads it.
-/

namespace Fdm.Pop3

open Fdm.Fetch Lib.Scanf Lib.KeyedTree

/-- `struct fetch_pop3_mail`. -/
structure FetchPop3Mail where
  uid : List Char
  idx : ℕ
deriving DecidableEq, Repr

/-- `struct fetch_pop3_tree`: `pop3_cmp` compares the UIDs. -/
abbrev FetchPop3Tree := Tree FetchPop3Mail.uid

/-- `struct fetch_pop3_data`; `path` says whether there is a cache file. -/
structure FetchPop3Data where
  path : Bool := true
  only : FetchOnly := .all
  user : List Char := []
  pass : List Char := []
  apop : Bool := false
  uidl : Bool := true
  cur : ℕ := 0
  num : ℕ := 0
  total : ℕ := 0
  committed : ℕ := 0
  serverq : FetchPop3Tree := .empty
  cacheq : FetchPop3Tree := .empty
  wantq : List FetchPop3Mail := []
  dropq : List FetchPop3Mail := []
  flushing : Bool := false
  size : ℕ := 0

/-- The state functions. -/
inductive State
  | init
  | connect
  | connected
  | user
  | stat
  | first
  | cache1
  | cache2
  | cache3
  | next
  | delete
  | reconnect
  | list
  | retr
  | line
  | quit
deriving DecidableEq, Repr

/-- The command lines; `apop` has the string whose digest is sent. -/
inductive Cmd
  | apop (user src : List Char)
  | user (user : List Char)
  | pass (pass : List Char)
  | stat
  | uidl
  | list (n : ℕ)
  | retr (n : ℕ)
  | dele (n : ℕ)
  | quit
deriving DecidableEq, Repr

/-- A command sent, the mail it is about, and the listing of its session so far. -/
structure Sent where
  cmd : Cmd
  aux : Option FetchPop3Mail := none
  listing : List FetchPop3Mail := []
deriving DecidableEq, Repr

/-- A cache file written, with the history at that moment. -/
structure Save where
  file : List Char
  first : List (List Char)
  kept : List (List Char)
  acked : List (List Char)
deriving DecidableEq, Repr

/-- What has happened so far. `listing` is the UIDL reply of the current session,
`listings` has the UIDs on the server in each session that got as far as knowing them. -/
structure History where
  sent : List Sent := []
  listing : List FetchPop3Mail := []
  listings : List (List (List Char)) := []
  selected : List (List Char) := []
  kept : List (List Char) := []
  dropped : List (List Char) := []
  acked : List (List Char) := []
  saves : List Save := []
deriving DecidableEq, Repr

/-- The data of the fetcher and what it works on. -/
abbrev Env := Wire FetchPop3Data History

abbrev Ctx := FetchCtx State FetchPop3Mail

abbrev Result := FetchCode × Ctx × Env

/-! ## Talking to the server -/

/-- `pop3_putln`, followed by `fctx->state = s; return (FETCH_BLOCK);`. -/
def putln (cmd : Cmd) (aux : Option FetchPop3Mail) (s : State) (fctx : Ctx) (e : Env) :
    Result :=
  if e.fault then (.error, fctx, e)
  else
    (.block, { fctx with state := s },
      { e with hist := { e.hist with sent := e.hist.sent ++ [⟨cmd, aux, e.hist.listing⟩] } })

/-- `pop3_okay`. -/
def okay (line : List Char) : Bool := line.take 3 = ['+', 'O', 'K']

/-- `pop3_getln` and the check that the line is a positive reply. -/
def getOkay (fctx : Ctx) (e : Env) (k : List Char → Env → Result) : Result :=
  getln fctx e fun line _ e => if okay line then k line e else (.error, fctx, e)

/-! ## The cache file -/

/-- The loop of `pop3_load`; the first argument bounds the number of entries. -/
def loadEntries : ℕ → List Char → FetchPop3Tree → Option FetchPop3Tree
  | 0, _, _ => none
  | fuel + 1, s, t =>
    match scanNum 64 s with
    -- the file may end in front of a number only
    | none => if (takeSign (s.dropWhile isSpace)).2 = [] then some t else none
    | some (uidlen, rest) =>
      let rest := rest.dropWhile isSpace
      if uidlen = 0 ∨ rest.length < uidlen then none
      else loadEntries fuel (rest.drop uidlen) (t.insert ⟨cstr (rest.take uidlen), 0⟩)

/-- `pop3_load` on the contents of the cache file. -/
def loadFile (s : List Char) (t : FetchPop3Tree) : Option FetchPop3Tree :=
  loadEntries (s.length + 1) s t

/-- `pop3_load`. -/
def load (e : Env) : Option FetchPop3Tree :=
  if !e.data.path then some e.data.cacheq
  else if e.fault then none
  else
    match e.disk with
    | none => some e.data.cacheq
    | some s => loadFile s e.data.cacheq

/-- One line of the cache file. -/
def saveEntry (aux : FetchPop3Mail) : List Char :=
  decimal aux.uid.length ++ [' '] ++ aux.uid ++ ['\n']

/-- The cache file `pop3_save` writes. -/
def saveFile (t : FetchPop3Tree) : List Char := t.toList.flatMap saveEntry

/-- `pop3_save`: `none` when it fails. -/
def save (e : Env) : Option Env :=
  if !e.data.path then some e
  else if e.fault then none
  else
    let s := saveFile e.data.cacheq
    some { e with
      disk := some s
      hist := { e.hist with
        saves := e.hist.saves ++
          [⟨s, e.hist.listings.headD [], e.hist.kept, e.hist.acked⟩] } }

/-! ## Commit and abort -/

/-- Put a mail into the cache tree, unless its UID is there. -/
def addCache (aux : FetchPop3Mail) (t : FetchPop3Tree) : FetchPop3Tree :=
  if (t.find aux.uid).isNone then t.insert aux else t

/-- `pop3_commit`. -/
def commit (m : Mail FetchPop3Mail) (e : Env) : FetchCode × Mail FetchPop3Mail × Env :=
  match m.auxdata with
  | none => (.crash, m, e)
  | some aux =>
    match m.decision with
    | .drop =>
      (.again, { m with auxdata := none },
        { e with
          data := { e.data with dropq := e.data.dropq ++ [aux] }
          hist := { e.hist with dropped := e.hist.dropped ++ [aux.uid] } })
    | .keep =>
      let e := { e with
        data := { e.data with
          cacheq := addCache aux e.data.cacheq
          committed := e.data.committed + 1 }
        hist := { e.hist with kept := e.hist.kept ++ [aux.uid] } }
      if e.data.only ≠ .old then
        match save e with
        | none => (.error, { m with auxdata := none }, e)
        | some e => (.again, { m with auxdata := none }, e)
      else (.again, { m with auxdata := none }, e)

/-- `pop3_abort`. -/
def abort (e : Env) : Env :=
  { e with
    data := { e.data with serverq := .empty, cacheq := .empty, wantq := [], dropq := [] }
    inbuf := [] }

/-! ## The state functions -/

/-- `pop3_state_init`. -/
def stateInit (fctx : Ctx) (e : Env) : Result :=
  (.again, { fctx with state := .connect },
    { e with data := { e.data with
        serverq := .empty, cacheq := .empty, wantq := [], dropq := []
        total := 0, committed := 0 } })

/-- `pop3_state_connect`: a new connection has nothing to read yet. -/
def stateConnect (fctx : Ctx) (e : Env) : Result :=
  if e.fault then (.error, fctx, e)
  else
    (.block, { fctx with state := .connected },
      { e with inbuf := [], hist := { e.hist with listing := [] } })

/-- The string in the greeting that `APOP` signs, from `<` to the next `>`. -/
def apopSource (line : List Char) : Option (List Char) :=
  match line.dropWhile (· ≠ '<') with
  | [] => none
  | c :: s =>
    if '>' ∈ s then some (c :: s.takeWhile (· ≠ '>') ++ ['>']) else none

/-- `pop3_state_connected`. -/
def stateConnected (fctx : Ctx) (e : Env) : Result :=
  getOkay fctx e fun line e =>
    match if e.data.apop then apopSource line else none with
    | some src => putln (.apop e.data.user (src ++ e.data.pass)) none .stat fctx e
    | none => putln (.user e.data.user) none .user fctx e

/-- `pop3_state_user`. -/
def stateUser (fctx : Ctx) (e : Env) : Result :=
  getOkay fctx e fun _ e => putln (.pass e.data.pass) none .stat fctx e

/-- `pop3_state_stat`. -/
def stateStat (fctx : Ctx) (e : Env) : Result :=
  getOkay fctx e fun _ e => putln .stat none .first fctx e

/-- The want queue that is made up when there is no UIDL. -/
def numbered (num : ℕ) : List FetchPop3Mail :=
  (List.range' 1 num).map fun i => ⟨[], i⟩

/-- `"+OK %u %u"`. -/
def okayTwo : List Dir := lits ['+', 'O', 'K'] ++ [.space, u32, .space, u32]

/-- `pop3_state_first`. -/
def stateFirst (fctx : Ctx) (e : Env) : Result :=
  getOkay fctx e fun line e =>
    match sscanf okayTwo line with
    | [num, _] =>
      let e := { e with data := { e.data with num := num, cur := 0 } }
      if num = 0 then
        let e := { e with hist := { e.hist with listings := e.hist.listings ++ [[]] } }
        if e.data.total ≠ 0 then (.again, { fctx with state := .next }, e)
        else putln .quit none .quit fctx e
      else if !e.data.uidl then
        (.again, { fctx with state := .next },
          { e with data := { e.data with
              wantq := e.data.wantq ++ numbered num
              total := e.data.total + num } })
      else putln .uidl none .cache1 fctx e
    | _ => (.error, fctx, e)

/-- `pop3_state_cache1`. -/
def stateCache1 (fctx : Ctx) (e : Env) : Result :=
  getOkay fctx e fun _ e =>
    (.again, { fctx with state := .cache2 }, { e with data := { e.data with serverq := .empty } })

/-- The checks a UID has to pass. -/
def validUid (uid : List Char) : Bool :=
  uid ≠ [] && uid.all (fun c => '\x21' ≤ c && c ≤ '\x7e') && uid.length ≤ 70

/-- The loop of `pop3_state_cache2`, over the lines that have arrived. -/
def cache2Loop (fctx : Ctx) : List Received → Env → Result
  | inbuf, e =>
    if e.data.cur = e.data.num then
      (.again, { fctx with state := .cache3 }, { e with inbuf := inbuf })
    else
      match inbuf with
      | [] => (.block, fctx, { e with inbuf := [] })
      | .broken :: _ => (.error, fctx, e)
      | .line s _ :: rest =>
        match sscanf [u32, .space, .word] s with
        | [n] =>
          if n ≠ e.data.cur + 1 then (.error, fctx, e)
          else
            match s.dropWhile (· ≠ ' ') with
            -- `strchr` has found no space, and its result is used all the same
            | [] => (.crash, fctx, e)
            | _ :: uid =>
              if !validUid uid || (e.data.serverq.find uid).isSome then (.error, fctx, e)
              else
                cache2Loop fctx rest
                  { e with
                    data := { e.data with
                      serverq := e.data.serverq.insert ⟨uid, n⟩, cur := e.data.cur + 1 }
                    hist := { e.hist with listing := e.hist.listing ++ [⟨uid, n⟩] } }
        | _ => (.error, fctx, e)

/-- `pop3_state_cache2`. -/
def stateCache2 (fctx : Ctx) (e : Env) : Result := cache2Loop fctx e.inbuf e

/-- Insert into a want queue kept in the order of the server. -/
def insertByIdx (aux : FetchPop3Mail) : List FetchPop3Mail → List FetchPop3Mail
  | [] => [aux]
  | b :: q => if aux.idx < b.idx then aux :: b :: q else b :: insertByIdx aux q

/-- Whether a mail on the server is to be fetched. -/
def wants (only : FetchOnly) (cacheq : FetchPop3Tree) (aux : FetchPop3Mail) : Bool :=
  match only with
  | .all => true
  | .new => (cacheq.find aux.uid).isNone
  | .old => (cacheq.find aux.uid).isSome

/-- The want queue after a reconnect: mails now not on the server are removed, the others
get their new number. -/
def reindex (serverq : FetchPop3Tree) (q : List FetchPop3Mail) : List FetchPop3Mail :=
  q.filterMap fun aux => (serverq.find aux.uid).map fun s => { aux with idx := s.idx }

/-- Weed out any cached mail that doesn't exist on the server. -/
def weed (serverq cacheq : FetchPop3Tree) : FetchPop3Tree :=
  cacheq.filter fun aux => (serverq.find aux.uid).isSome

/-- The mails on the server that are to be fetched. -/
def selection (only : FetchOnly) (serverq cacheq : FetchPop3Tree) : List FetchPop3Mail :=
  serverq.toList.filter (wants only cacheq)

/-- Build the want queue from the server queue and the weeded cache. -/
def buildWantq (cacheq : FetchPop3Tree) (e : Env) : Env :=
  { e with
    data := { e.data with
      cacheq := cacheq
      wantq := (selection e.data.only e.data.serverq cacheq).foldl
        (fun q aux => insertByIdx aux q) e.data.wantq
      total := e.data.total + (selection e.data.only e.data.serverq cacheq).length }
    hist := { e.hist with
      listings := e.hist.listings ++ [e.data.serverq.keys]
      selected := (selection e.data.only e.data.serverq cacheq).map FetchPop3Mail.uid } }

/-- `pop3_state_cache3` when not reconnecting: build the want queue. -/
def cache3Select (fctx : Ctx) (e : Env) : Result :=
  match load e with
  | none => (.error, fctx, e)
  | some cacheq =>
    let e := buildWantq (weed e.data.serverq cacheq) e
    if e.data.total = 0 ∨ fctx.flags.poll then putln .quit none .quit fctx e
    else (.again, { fctx with state := .next }, e)

/-- `pop3_state_cache3` when reconnecting. -/
def cache3Reindex (fctx : Ctx) (e : Env) : Result :=
  let wantq := reindex e.data.serverq e.data.wantq
  (.again, { fctx with state := .next },
    { e with
      data := { e.data with
        wantq := wantq
        total := e.data.total - (e.data.wantq.length - wantq.length) }
      hist := { e.hist with listings := e.hist.listings ++ [e.data.serverq.keys] } })

/-- The test in `pop3_state_cache3` for the line that ends the UIDL reply. The second byte
of an empty line is whatever the buffer still holds. -/
def endsListing (line stale : List Char) : Bool :=
  line.head? = some '.' || (if line = [] then stale.headD '\x00' else line.getD 1 '\x00') = '\x00'

/-- `pop3_state_cache3`. -/
def stateCache3 (fctx : Ctx) (e : Env) : Result :=
  getln fctx e fun line stale e =>
    if !endsListing line stale then (.error, fctx, e)
    else if e.data.total = 0 then cache3Select fctx e
    else cache3Reindex fctx e

/-- `pop3_state_next`. -/
def stateNext (fctx : Ctx) (e : Env) : Result :=
  match e.data.dropq with
  | aux :: _ => putln (.dele aux.idx) (some aux) .delete fctx e
  | [] =>
    match e.data.wantq with
    | [] =>
      if e.data.committed ≠ e.data.total then (.block, fctx, e)
      else putln .quit none .quit fctx e
    | aux :: _ =>
      if fctx.flags.purge then
        if fctx.flags.empty then
          putln .quit none .reconnect
            { fctx with flags := { fctx.flags with purge := false } } e
        else (.block, fctx, e)
      else
        putln (.list aux.idx) (some aux) .list
          { fctx with mail := { fctx.mail with auxdata := some aux } } e

/-- `pop3_state_delete`. -/
def stateDelete (fctx : Ctx) (e : Env) : Result :=
  getOkay fctx e fun _ e =>
    match e.data.dropq with
    | [] => (.crash, fctx, e)
    | aux :: dropq =>
      let e := { e with
        data := { e.data with
          dropq := dropq
          cacheq := addCache aux e.data.cacheq
          committed := e.data.committed + 1 }
        hist := { e.hist with acked := e.hist.acked ++ [aux.uid] } }
      if e.data.only ≠ .old then
        match save e with
        | none => (.error, fctx, e)
        | some e => (.again, { fctx with state := .next }, e)
      else (.again, { fctx with state := .next }, e)

/-- `pop3_state_reconnect`. -/
def stateReconnect (fctx : Ctx) (e : Env) : Result :=
  getOkay fctx e fun _ e =>
    (.again, { fctx with state := .connect }, { e with inbuf := [] })

/-- `"+OK %u %zu"`. -/
def okaySize : List Dir := lits ['+', 'O', 'K'] ++ [.space, u32, .space, usize]

/-- `pop3_state_list`. -/
def stateList (fctx : Ctx) (e : Env) : Result :=
  getOkay fctx e fun line e =>
    match fctx.mail.auxdata, sscanf okaySize line with
    | some aux, [n, size] =>
      let e := { e with data := { e.data with size := size } }
      if n ≠ aux.idx then (.error, fctx, e)
      else putln (.retr aux.idx) (some aux) .retr fctx e
    | none, [_, _] => (.crash, fctx, e)
    | _, _ => (.error, fctx, e)

/-- `pop3_state_retr`. -/
def stateRetr (fctx : Ctx) (e : Env) : Result :=
  getOkay fctx e fun _ e =>
    if e.fault then (.error, fctx, e)
    else
      (.again, { fctx with state := .line, mail := { fctx.mail with data := [] } },
        { e with data := { e.data with flushing := false } })

/-- Remove the dot a server puts in front of a line that starts with one. -/
def unstuff (line : List Char) : List Char :=
  if line.head? = some '.' then line.tail else line

/-- The loop of `pop3_state_line`, over the lines that have arrived. -/
def lineLoop (conf : Conf) (fctx : Ctx) :
    List Received → Mail FetchPop3Mail → Env → Result
  | [], m, e => (.block, { fctx with mail := m }, { e with inbuf := [] })
  | .broken :: _, m, e => (.error, { fctx with mail := m }, e)
  | .line s _ :: rest, m, e =>
    if s = ['.'] then
      match m.auxdata with
      | none => (.crash, { fctx with mail := m }, e)
      | some aux =>
        (.mail, { fctx with state := .next, mail := m },
          { e with inbuf := rest, data := { e.data with wantq := e.data.wantq.erase aux } })
    else if e.data.flushing then lineLoop conf fctx rest m e
    else if e.fault then (.error, { fctx with mail := m }, e)
    else
      lineLoop conf fctx rest (m.appendLine (unstuff s))
        { e with data := { e.data with
            flushing := decide (conf.maxSize < (m.appendLine (unstuff s)).size) } }

/-- `pop3_state_line`. -/
def stateLine (conf : Conf) (fctx : Ctx) (e : Env) : Result :=
  lineLoop conf fctx e.inbuf fctx.mail e

/-- `pop3_state_quit`. -/
def stateQuit (fctx : Ctx) (e : Env) : Result :=
  getOkay fctx e fun _ e => (.exit, fctx, abort e)

/-- `fctx->state(a, fctx)`. -/
def state (conf : Conf) (fctx : Ctx) (e : Env) : Result :=
  match fctx.state with
  | .init => stateInit fctx e
  | .connect => stateConnect fctx e
  | .connected => stateConnected fctx e
  | .user => stateUser fctx e
  | .stat => stateStat fctx e
  | .first => stateFirst fctx e
  | .cache1 => stateCache1 fctx e
  | .cache2 => stateCache2 fctx e
  | .cache3 => stateCache3 fctx e
  | .next => stateNext fctx e
  | .delete => stateDelete fctx e
  | .reconnect => stateReconnect fctx e
  | .list => stateList fctx e
  | .retr => stateRetr fctx e
  | .line => stateLine conf fctx e
  | .quit => stateQuit fctx e

/-- `fetch_pop3` and `fetch_pop3pipe`. -/
def fetcher (conf : Conf) : Fetcher Env State FetchPop3Mail Input where
  first := .init
  state := state conf
  commit := commit
  abort := abort
  auxfree := fun _ e => e
  input := input

/-- Where a run starts: the account's settings and the cache file on disk. -/
def begin (conf : Conf) (poll path : Bool) (only : FetchOnly) (uidl apop : Bool)
    (user pass : List Char) (disk : Option (List Char)) : Loop Env State FetchPop3Mail :=
  let data : FetchPop3Data :=
    { path := path, only := only, uidl := uidl, apop := apop, user := user, pass := pass }
  start (fetcher conf) { poll := poll } { data := data, disk := disk, hist := {} }

end Fdm.Pop3
