import Fdm.Fetch.Wire
import Fdm.Lib.Scanf

/-!
# The IMAP fetcher

`imap-common.c`: reading and classifying lines, the state functions from
`imap_state_init` to `imap_state_quit`, and the commit function.

A tagged line without a space in it loses its terminator in `imap_tag`, so what the line
buffer holds behind it becomes part of the line; `tagged` is the line as it is afterwards.
-/

namespace Fdm.Imap

open Fdm.Fetch Lib.Scanf

/-- `struct fetch_imap_mail`. -/
structure FetchImapMail where
  uid : ℕ
deriving DecidableEq, Repr

/-- `struct fetch_imap_data`. Of `capa` only the `AUTH=CRAM-MD5` bit is read here. -/
structure FetchImapData where
  only : FetchOnly := .all
  user : Option (List Char) := none
  pass : Option (List Char) := none
  nocrammd5 : Bool := false
  nologin : Bool := false
  folder : ℕ := 0
  folders : List (List Char) := []
  foldersTotal : ℕ := 0
  capaCramMd5 : Bool := false
  tag : ℕ := 0
  wanted : List ℕ := []
  dropped : List ℕ := []
  kept : List ℕ := []
  total : ℕ := 0
  committed : ℕ := 0
  flushing : Bool := false
  size : ℕ := 0
  lines : ℕ := 0
deriving DecidableEq, Repr

/-- The state functions. -/
inductive State
  | init
  | connect
  | connected
  | capability1
  | capability2
  | cramMd5Auth
  | login
  | user
  | pass
  | select1
  | select2
  | select3
  | select4
  | search1
  | search2
  | search3
  | next
  | body
  | line
  | mail
  | commit
  | expunge
  | close
  | quit
deriving DecidableEq, Repr

/-- The command lines, without their tags. `response` has the challenge it answers. -/
inductive Cmd
  | capability
  | authenticate
  | response (challenge : List Char)
  | login (len : ℕ)
  | user (user : List Char) (len : ℕ)
  | pass (pass : List Char)
  | select (len : ℕ)
  | folder (name : List Char)
  | search (only : FetchOnly)
  | storeDeleted (uid : ℕ)
  | storeSeen (uid : ℕ)
  | expunge
  | close
  | fetch (uid : ℕ)
  | logout
deriving DecidableEq, Repr

/-- What has happened so far. Since the current folder was selected: the UIDs its search
found, the one whose `STORE` is not answered yet, and those whose `STORE` is. -/
structure History where
  sent : List Cmd := []
  selected : List ℕ := []
  storing : List ℕ := []
  stored : List ℕ := []
deriving DecidableEq, Repr

/-- The data of the fetcher and what it works on. -/
abbrev Env := Wire FetchImapData History

abbrev Ctx := FetchCtx State FetchImapMail

abbrev Result := FetchCode × Ctx × Env

/-! ## Reading lines -/

/-- What `imap_tag` returns. -/
inductive Tag
  | none
  | continue
  | error
  | num (n : ℕ)
deriving DecidableEq, Repr

/-- `imap_tag`. -/
def imapTag (line : List Char) : Tag :=
  if ['*', ' '] <+: line then .none
  else if line.head? = some '+' then .continue
  else
    match strtonum (2 ^ 31 - 1) (line.takeWhile (· ≠ ' ')) with
    | Option.none => .error
    | some n => .num n

/-- The kinds of line that `imap_getln` waits for. -/
inductive LineType
  | tagged
  | continue
  | untagged
  | raw
deriving DecidableEq, Repr

/-- What `imap_parse` makes of a line. -/
inductive Parsed
  | invalid
  | ok
  | ignore
deriving DecidableEq, Repr

/-- `imap_parse`. -/
def imapParse (type : LineType) (tag : ℕ) (line : List Char) : Parsed :=
  match type with
  | .raw => .ok
  | .tagged =>
    match imapTag line with
    | .none => .ignore
    | .num n => if n = tag then .ok else .invalid
    | _ => .invalid
  | .untagged =>
    match imapTag line with
    | .none => .ok
    | _ => .invalid
  | .continue =>
    match imapTag line with
    | .none => .ignore
    | .continue => .ok
    | _ => .invalid

/-- A line after `imap_tag` has looked for its tag. -/
def tagged (line stale : List Char) : List Char :=
  if ' ' ∈ line then line else line ++ ' ' :: stale

/-- The line that `imap_getln` hands out. -/
def seen (type : LineType) (line stale : List Char) : List Char :=
  match type with
  | .tagged => tagged line stale
  | _ => line

/-- The loop of `imap_getln`, over the lines that have arrived. -/
def getlnLoop (type : LineType) (fctx : Ctx) (e : Env) (k : List Char → Env → Result) :
    List Received → Result
  | [] => (.block, fctx, { e with inbuf := [] })
  | .broken :: _ => (.error, fctx, e)
  | .line s stale :: rest =>
    match imapParse type e.data.tag s with
    | .invalid => (.error, fctx, { e with inbuf := rest })
    | .ignore => getlnLoop type fctx e k rest
    | .ok => k (seen type s stale) { e with inbuf := rest }

/-- `imap_getln`: `FETCH_ERROR` when it fails, `FETCH_BLOCK` when there is no line yet. -/
def imapGetln (type : LineType) (fctx : Ctx) (e : Env) (k : List Char → Env → Result) :
    Result := getlnLoop type fctx e k e.inbuf

/-- What follows the first space of a reply is the word, alone or followed by a space. -/
def replies (word line : List Char) : Bool :=
  match line.dropWhile (· ≠ ' ') with
  | [] => false
  | _ :: s => word <+: s && (s.drop word.length).headD ' ' = ' '

/-- `imap_okay`. -/
def imapOkay (line : List Char) : Bool := replies ['O', 'K'] line

/-- A tagged line that has to be `OK`. -/
def getOkay (fctx : Ctx) (e : Env) (k : Env → Result) : Result :=
  imapGetln .tagged fctx e fun line e => if imapOkay line then k e else (.error, fctx, e)

/-! ## Writing lines -/

/-- `imap_putln`, followed by `fctx->state = s; return (FETCH_BLOCK);`. -/
def putln (cmd : Cmd) (s : State) (fctx : Ctx) (e : Env) : Result :=
  if e.fault then (.error, fctx, e)
  else
    (.block, { fctx with state := s },
      { e with hist := { e.hist with sent := e.hist.sent ++ [cmd] } })

/-- The same for a command with a new tag. -/
def putTagged (cmd : Cmd) (s : State) (fctx : Ctx) (e : Env) : Result :=
  putln cmd s fctx { e with data := { e.data with tag := e.data.tag + 1 } }

/-! ## Commit and abort -/

/-- `imap_commit`. -/
def imapCommit (m : Mail FetchImapMail) (e : Env) : FetchCode × Mail FetchImapMail × Env :=
  match m.auxdata with
  | none => (.crash, m, e)
  | some aux =>
    match m.decision with
    | .drop =>
      (.again, { m with auxdata := none },
        { e with data := { e.data with dropped := e.data.dropped ++ [aux.uid] } })
    | .keep =>
      (.again, { m with auxdata := none },
        { e with data := { e.data with kept := e.data.kept ++ [aux.uid] } })

/-- `imap_abort`. -/
def imapAbort (e : Env) : Env :=
  { e with
    data := { e.data with dropped := [], kept := [], wanted := [] }
    inbuf := [] }

/-! ## The state functions -/

/-- `imap_state_init`. -/
def stateInit (fctx : Ctx) (e : Env) : Result :=
  (.again, { fctx with state := .connect },
    { e with data := { e.data with
        dropped := [], kept := [], wanted := [], tag := 0, folder := 0, foldersTotal := 0 } })

/-- `imap_state_connect`. -/
def stateConnect (fctx : Ctx) (e : Env) : Result :=
  if e.fault then (.error, fctx, e)
  else (.block, { fctx with state := .connected }, { e with inbuf := [] })

/-- `"* PREAUTH"`. -/
def preauth : List Char := ['*', ' ', 'P', 'R', 'E', 'A', 'U', 'T', 'H']

/-- `imap_state_connected`. -/
def stateConnected (fctx : Ctx) (e : Env) : Result :=
  imapGetln .untagged fctx e fun line e =>
    if preauth <+: line then (.again, { fctx with state := .select1 }, e)
    else if e.data.user.isNone || e.data.pass.isNone then (.error, fctx, e)
    else putTagged .capability .capability1 fctx e

/-- `"IMAP4REV1"`. -/
def imap4rev1 : List Char := ['I', 'M', 'A', 'P', '4', 'R', 'E', 'V', '1']

/-- `"AUTH=CRAM-MD5"`. -/
def authCramMd5 : List Char :=
  ['A', 'U', 'T', 'H', '=', 'C', 'R', 'A', 'M', '-', 'M', 'D', '5']

/-- `imap_state_capability1`. -/
def stateCapability1 (fctx : Ctx) (e : Env) : Result :=
  imapGetln .untagged fctx e fun line e =>
    let line := line.map Char.toUpper
    if (strstr imap4rev1 line).isNone then (.error, fctx, e)
    else
      (.again, { fctx with state := .capability2 },
        { e with data := { e.data with capaCramMd5 := (strstr authCramMd5 line).isSome } })

/-- `imap_state_capability2`. -/
def stateCapability2 (fctx : Ctx) (e : Env) : Result :=
  getOkay fctx e fun e =>
    if !e.data.nocrammd5 && e.data.capaCramMd5 then
      putTagged .authenticate .cramMd5Auth fctx e
    else if !e.data.nologin then
      match e.data.user with
      | none => (.crash, fctx, e)
      | some user => putTagged (.login user.length) .login fctx e
    else (.error, fctx, e)

/-- `imap_state_cram_md5_auth`. `pton` is `b64_pton`, whose failure is not checked. -/
def stateCramMd5Auth (pton : List Char → Option (List Char)) (fctx : Ctx) (e : Env) : Result :=
  imapGetln .continue fctx e fun line e =>
    let ptr := line.tail.dropWhile isSpace
    if ptr = [] then (.error, fctx, e)
    else
      match pton ptr with
      | none => (.crash, fctx, e)
      | some challenge => putln (.response challenge) .pass fctx e

/-- `imap_state_login`. -/
def stateLogin (fctx : Ctx) (e : Env) : Result :=
  imapGetln .continue fctx e fun _ e =>
    match e.data.user, e.data.pass with
    | some user, some pass => putln (.user user pass.length) .user fctx e
    | _, _ => (.crash, fctx, e)

/-- `imap_state_user`. -/
def stateUser (fctx : Ctx) (e : Env) : Result :=
  imapGetln .continue fctx e fun _ e =>
    match e.data.pass with
    | none => (.crash, fctx, e)
    | some pass => putln (.pass pass) .pass fctx e

/-- `imap_state_pass`. -/
def statePass (fctx : Ctx) (e : Env) : Result :=
  getOkay fctx e fun e => (.again, { fctx with state := .select1 }, e)

/-- `imap_state_select1`. -/
def stateSelect1 (fctx : Ctx) (e : Env) : Result :=
  match e.data.folders[e.data.folder]? with
  | none => (.crash, fctx, e)
  | some name =>
    putTagged (.select name.length) .select2 fctx
      { e with hist := { e.hist with selected := [], storing := [], stored := [] } }

/-- `imap_state_select2`. -/
def stateSelect2 (fctx : Ctx) (e : Env) : Result :=
  imapGetln .continue fctx e fun _ e =>
    match e.data.folders[e.data.folder]? with
    | none => (.crash, fctx, e)
    | some name => putln (.folder name) .select3 fctx e

/-- `"* %u EXISTS"`. -/
def existsLine : List Dir :=
  [.lit '*', .space, u32, .space] ++ lits ['E', 'X', 'I', 'S', 'T', 'S']

/-- The loop of `imap_state_select3`, over the lines that have arrived. -/
def select3Loop (fctx : Ctx) : List Received → Env → Result
  | [], e => (.block, fctx, { e with inbuf := [] })
  | .broken :: _, e => (.error, fctx, e)
  | .line s _ :: rest, e =>
    match imapParse .untagged e.data.tag s with
    | .ok =>
      match sscanf existsLine s with
      | [total] =>
        (.again, { fctx with state := .select4 },
          { e with inbuf := rest, data := { e.data with total := total } })
      | _ => select3Loop fctx rest e
    | _ => (.error, fctx, { e with inbuf := rest })

/-- `imap_state_select3`. -/
def stateSelect3 (fctx : Ctx) (e : Env) : Result := select3Loop fctx e.inbuf e

/-- `imap_state_select4`. -/
def stateSelect4 (fctx : Ctx) (e : Env) : Result :=
  getOkay fctx e fun e =>
    if e.data.total = 0 then putTagged .close .close fctx e
    else (.again, { fctx with state := .search1 }, e)

/-- `imap_state_search1`. -/
def stateSearch1 (fctx : Ctx) (e : Env) : Result :=
  putTagged (.search e.data.only) .search2 fctx e

/-- The loop of `imap_state_search2` over the UIDs in a line; the first argument bounds
their number. -/
def searchUids : ℕ → List Char → Option (List ℕ)
  | 0, _ => none
  | fuel + 1, line =>
    let line := line.dropWhile isSpace
    if line = [] then some []
    else
      match sscanf [u32] line with
      | [uid] =>
        let ptr := line.dropWhile (· ≠ ' ')
        if ptr = [] then some [uid] else (searchUids fuel ptr).map (uid :: ·)
      | _ => none

/-- `"* SEARCH"`. -/
def searchHeader : List Char := ['*', ' ', 'S', 'E', 'A', 'R', 'C', 'H']

/-- `imap_state_search2`. -/
def stateSearch2 (fctx : Ctx) (e : Env) : Result :=
  imapGetln .untagged fctx e fun line e =>
    if (line.take 8).map Char.toUpper ≠ searchHeader then (.error, fctx, e)
    else
      match searchUids (line.length + 1) (line.drop 8) with
      | none => (.error, fctx, e)
      | some uids =>
        (.again, { fctx with state := .search3 },
          { e with
            data := { e.data with wanted := e.data.wanted ++ uids }
            hist := { e.hist with selected := uids } })

/-- `imap_state_search3`. -/
def stateSearch3 (fctx : Ctx) (e : Env) : Result :=
  getOkay fctx e fun e =>
    let e := { e with data := { e.data with
        total := e.data.wanted.length
        foldersTotal := e.data.foldersTotal + e.data.wanted.length } }
    if e.data.total = 0 ∨ fctx.flags.poll then putTagged .close .close fctx e
    else (.again, { fctx with state := .next }, e)

/-- `imap_state_next`. -/
def stateNext (fctx : Ctx) (e : Env) : Result :=
  match e.data.dropped with
  | uid :: dropped =>
    putTagged (.storeDeleted uid) .commit fctx
      { e with
        data := { e.data with dropped := dropped }
        hist := { e.hist with storing := e.hist.storing ++ [uid] } }
  | [] =>
    match e.data.kept with
    | uid :: kept =>
      putTagged (.storeSeen uid) .commit fctx
        { e with
          data := { e.data with kept := kept }
          hist := { e.hist with storing := e.hist.storing ++ [uid] } }
    | [] =>
      if fctx.flags.purge then
        if fctx.flags.empty then
          putTagged .expunge .expunge
            { fctx with flags := { fctx.flags with purge := false } } e
        else (.block, fctx, e)
      else
        match e.data.wanted with
        | [] =>
          if e.data.committed ≠ e.data.total then (.block, fctx, e)
          else putTagged .close .close fctx e
        | uid :: _ => putTagged (.fetch uid) .body fctx e

/-- `"* %u FETCH ("`. -/
def fetchLine : List Dir :=
  [.lit '*', .space, u32, .space] ++ lits ['F', 'E', 'T', 'C', 'H'] ++ [.space, .lit '(']

/-- `"BODY[] {"`. -/
def bodyLiteral : List Char := ['B', 'O', 'D', 'Y', '[', ']', ' ', '{']

/-- `"BODY[] {%zu}"`. -/
def bodySize : List Dir :=
  lits ['B', 'O', 'D', 'Y', '[', ']'] ++ [.space, .lit '{', usize, .lit '}']

/-- `imap_state_body`. -/
def stateBody (conf : Conf) (fctx : Ctx) (e : Env) : Result :=
  imapGetln .untagged fctx e fun line e =>
    match sscanf fetchLine line, strstr bodyLiteral line with
    | [_], some ptr =>
      match sscanf bodySize ptr, e.data.wanted with
      | [_], [] => (.crash, fctx, e)
      | [size], uid :: wanted =>
        if e.fault then (.error, fctx, e)
        else
          (.again,
            { fctx with
              state := .line
              mail := { fctx.mail with data := [], auxdata := some ⟨uid⟩ } },
            { e with data := { e.data with
                wanted := wanted
                size := size
                lines := 0
                flushing := decide (conf.maxSize < size) } })
      | _, _ => (.error, fctx, e)
    | _, _ => (.error, fctx, e)

/-- What `imap_state_line` does with the first line that does not fit any more. -/
def lastLine (fctx : Ctx) (s : List Char) (m : Mail FetchImapMail) (e : Env) : Result :=
  let left := e.data.size - (m.size + e.data.lines)
  match s.getLast? with
  -- the byte in front of an empty line is not the program's to read
  | none => (.crash, { fctx with mail := m }, e)
  | some c =>
    if c ≠ ')' ∧ s.length ≤ left then (.error, { fctx with mail := m }, e)
    else if left = 0 then (.again, { fctx with state := .mail, mail := m }, e)
    else if e.fault then (.error, { fctx with mail := m }, e)
    else
      (.again,
        { fctx with
          state := .mail
          mail := { m with data := m.data ++ (s ++ ['\x00']).take left } },
        { e with data := { e.data with lines := e.data.lines + 1 } })

/-- The loop of `imap_state_line`, over the lines that have arrived. -/
def lineLoop (fctx : Ctx) : List Received → Mail FetchImapMail → Env → Result
  | [], m, e => (.block, { fctx with mail := m }, { e with inbuf := [] })
  | .broken :: _, m, e => (.error, { fctx with mail := m }, e)
  | .line s _ :: rest, m, e =>
    if e.data.flushing then lineLoop fctx rest m e
    else if e.data.size < m.size + e.data.lines + s.length + 2 then
      lastLine fctx s m { e with inbuf := rest }
    else if e.fault then (.error, { fctx with mail := m }, e)
    else
      lineLoop fctx rest (m.appendLine s)
        { e with data := { e.data with lines := e.data.lines + 1 } }

/-- `imap_state_line`. -/
def stateLine (fctx : Ctx) (e : Env) : Result := lineLoop fctx e.inbuf fctx.mail e

/-- `imap_state_mail`. -/
def stateMail (fctx : Ctx) (e : Env) : Result :=
  getOkay fctx e fun e => (.mail, { fctx with state := .next }, e)

/-- `imap_state_commit`. -/
def stateCommit (fctx : Ctx) (e : Env) : Result :=
  getOkay fctx e fun e =>
    (.again, { fctx with state := .next },
      { e with
        data := { e.data with committed := e.data.committed + 1 }
        hist := { e.hist with
          stored := e.hist.stored ++ e.hist.storing
          storing := [] } })

/-- `imap_state_expunge`. -/
def stateExpunge (fctx : Ctx) (e : Env) : Result :=
  getOkay fctx e fun e => (.again, { fctx with state := .next }, e)

/-- `imap_state_close`. -/
def stateClose (fctx : Ctx) (e : Env) : Result :=
  getOkay fctx e fun e =>
    let e := { e with data := { e.data with folder := e.data.folder + 1 } }
    if e.data.folder ≠ e.data.folders.length then (.again, { fctx with state := .select1 }, e)
    else putTagged .logout .quit fctx e

/-- `imap_state_quit`. -/
def stateQuit (fctx : Ctx) (e : Env) : Result :=
  getOkay fctx e fun e => (.exit, fctx, imapAbort e)

/-- `fctx->state(a, fctx)`. -/
def state (conf : Conf) (pton : List Char → Option (List Char)) (fctx : Ctx) (e : Env) :
    Result :=
  match fctx.state with
  | .init => stateInit fctx e
  | .connect => stateConnect fctx e
  | .connected => stateConnected fctx e
  | .capability1 => stateCapability1 fctx e
  | .capability2 => stateCapability2 fctx e
  | .cramMd5Auth => stateCramMd5Auth pton fctx e
  | .login => stateLogin fctx e
  | .user => stateUser fctx e
  | .pass => statePass fctx e
  | .select1 => stateSelect1 fctx e
  | .select2 => stateSelect2 fctx e
  | .select3 => stateSelect3 fctx e
  | .select4 => stateSelect4 fctx e
  | .search1 => stateSearch1 fctx e
  | .search2 => stateSearch2 fctx e
  | .search3 => stateSearch3 fctx e
  | .next => stateNext fctx e
  | .body => stateBody conf fctx e
  | .line => stateLine fctx e
  | .mail => stateMail fctx e
  | .commit => stateCommit fctx e
  | .expunge => stateExpunge fctx e
  | .close => stateClose fctx e
  | .quit => stateQuit fctx e

/-- `fetch_imap` and `fetch_imappipe`. -/
def fetcher (conf : Conf) (pton : List Char → Option (List Char)) :
    Fetcher Env State FetchImapMail Input where
  first := .init
  state := state conf pton
  commit := imapCommit
  abort := imapAbort
  auxfree := fun _ e => e
  input := input

/-- Where a run starts: the account's settings. -/
def begin (conf : Conf) (pton : List Char → Option (List Char)) (poll : Bool)
    (only : FetchOnly) (user pass : Option (List Char)) (nocrammd5 nologin : Bool)
    (folders : List (List Char)) : Loop Env State FetchImapMail :=
  let data : FetchImapData :=
    { only := only, user := user, pass := pass, nocrammd5 := nocrammd5, nologin := nologin,
      folders := folders }
  start (fetcher conf pton) { poll := poll } { data := data, hist := {} }

end Fdm.Imap
