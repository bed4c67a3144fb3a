import Fdm.Imap.Invariant
import Fdm.Lib.Dialogue

/-!
# What the IMAP fetcher says to the server

`Phase.next` is the client's side of the protocol: which line may follow the lines before it. A
line that a `{n}` has announced has `n` bytes; mails are searched for, fetched and marked only
in a folder that is selected; nothing follows `LOGOUT`.

Whatever the server sends, the fetcher keeps to it (`conversation_follows`), and it sends the
account's password, or what is made of it, at most once (`secret_once`).
-/

namespace Fdm.Imap

open Fdm.Fetch Lib.Dialogue Lib.Runs

/-! ## The protocol -/

/-- How far the dialogue has come. -/
inductive Phase
  | greeting
  | capability
  | challenge
  | user (len : ℕ)
  | pass (len : ℕ)
  | ready
  | name (len : ℕ)
  | selected
  | searched
  | closed
  | bye
deriving DecidableEq, Repr

namespace Phase

/-- What may be said next. A server may greet with `PREAUTH`. -/
def next : Phase → Cmd → Option Phase
  | greeting, .capability => some capability
  | capability, .authenticate => some challenge
  | challenge, .response _ => some ready
  | capability, .login len => some (user len)
  | user len, .user s len' => if s.length = len then some (pass len') else none
  | pass len, .pass s => if s.length = len then some ready else none
  | greeting, .select len | ready, .select len | closed, .select len => some (name len)
  | name len, .folder s => if s.length = len then some selected else none
  | selected, .search _ => some searched
  | searched, .storeDeleted _ | searched, .storeSeen _ | searched, .expunge
  | searched, .fetch _ => some searched
  | selected, .close | searched, .close => some closed
  | closed, .logout => some bye
  | _, _ => none

/-- How often the password can still be asked for. -/
def secrets : Phase → ℕ
  | greeting | capability | challenge | user _ | pass _ => 1
  | _ => 0

end Phase

/-- The command sends the password, or what is made of it. -/
def Cmd.secret : Cmd → Bool
  | .response _ | .pass _ => true
  | _ => false

/-! ## The account -/

/-- The settings of an account. -/
structure Settings where
  user : Option (List Char)
  pass : Option (List Char)
  nocrammd5 : Bool
  nologin : Bool
  folders : List (List Char)

namespace Settings

/-- What the settings allow to be said. -/
def allows (cfg : Settings) : Cmd → Prop
  | .authenticate | .response _ => cfg.nocrammd5 = false
  | .login _ => cfg.nologin = false
  | .user s _ => cfg.nologin = false ∧ cfg.user = some s
  | .pass s => cfg.nologin = false ∧ cfg.pass = some s
  | .folder s => s ∈ cfg.folders
  | _ => True

/-- The data still has the settings in it. -/
structure Kept (cfg : Settings) (d : FetchImapData) : Prop where
  user : d.user = cfg.user
  pass : d.pass = cfg.pass
  nocrammd5 : d.nocrammd5 = cfg.nocrammd5
  nologin : d.nologin = cfg.nologin
  folders : d.folders = cfg.folders

end Settings

/-! ## The fetcher -/

/-- Where the dialogue is in a state. -/
def Phase.At (cfg : Settings) (folder : ℕ) (φ : Phase) : State → Prop
  | .init | .connect | .connected => φ = greeting
  | .capability1 | .capability2 => φ = capability
  | .cramMd5Auth => φ = challenge ∧ cfg.nocrammd5 = false
  | .login => cfg.nologin = false ∧ ∃ s, cfg.user = some s ∧ φ = user s.length
  | .user => cfg.nologin = false ∧ ∃ s, cfg.pass = some s ∧ φ = pass s.length
  | .pass => φ = ready
  | .select1 => φ = greeting ∨ φ = ready ∨ φ = closed
  | .select2 => ∃ s, cfg.folders[folder]? = some s ∧ φ = name s.length
  | .select3 | .select4 | .search1 => φ = selected
  | .search2 | .search3 | .next | .body | .line | .mail | .commit | .expunge => φ = searched
  | .close => φ = closed
  | .quit => φ = bye

/-- What has been said is a dialogue. -/
def Said (cfg : Settings) (e : Env) : Prop :=
  ∃ φ, Speaks Phase.next cfg.allows .greeting e.hist.sent φ

/-- It has come as far as the state says. -/
structure Talks (cfg : Settings) (s : State) (e : Env) : Prop where
  kept : cfg.Kept e.data
  said : ∃ φ, Speaks Phase.next cfg.allows .greeting e.hist.sent φ ∧ φ.At cfg e.data.folder s

/-- What a state relies on has the dialogue so far. -/
theorem Talks.dialogue {cfg : Settings} {s : State} {e : Env} (h : Talks cfg s e) : Said cfg e := by
  obtain ⟨φ, hφ, -⟩ := h.said
  exact ⟨φ, hφ⟩

/-- What a state function has to give back. -/
def Polite (cfg : Settings) (conf : Conf) (pton : List Char → Option (List Char))
    (q : List (Mail FetchImapMail)) : Result → Prop :=
  Outcome conf (fetcher conf pton) (fun _ c e => Talks cfg c.state e) (fun _ => Said cfg)
    (Said cfg) q

section
variable {cfg : Settings} {conf : Conf} {pton : List Char → Option (List Char)}
  {q : List (Mail FetchImapMail)} {c : Ctx} {e : Env} {s : State}

/-! ## Sending and receiving -/

/-- Reading a line sends nothing. -/
theorem polite_getln {type : LineType} {k : List Char → Env → Result}
    (h : Talks cfg c.state e)
    (hk : ∀ line b, Polite cfg conf pton q (k line { e with inbuf := b })) :
    Polite cfg conf pton q (imapGetln type c e k) :=
  imapGetln_cases (P := Polite cfg conf pton q) ⟨h.kept, h.said⟩ (fun _ => h.dialogue) hk

/-- Neither does waiting for an answer that is to be OK. -/
theorem polite_getOkay {k : Env → Result} (h : Talks cfg c.state e)
    (hk : ∀ b, Polite cfg conf pton q (k { e with inbuf := b })) :
    Polite cfg conf pton q (getOkay c e k) := by
  refine polite_getln h fun line b => ?_
  by_cases hok : imapOkay line
  · rw [if_pos hok]
    exact hk b
  · rw [if_neg hok]
    exact h.dialogue

/-- A line is sent that the dialogue allows and that leads to where the next state has it. -/
theorem polite_putln {cmd : Cmd} {φ φ' : Phase} (hkept : cfg.Kept e.data)
    (hsaid : Speaks Phase.next cfg.allows .greeting e.hist.sent φ) (hnext : φ.next cmd = some φ')
    (hcmd : cfg.allows cmd) (hat : φ'.At cfg e.data.folder s) :
    Polite cfg conf pton q (putln cmd s c e) := by
  unfold putln
  by_cases hfault : e.fault
  · rw [if_pos hfault]
    exact ⟨φ, hsaid⟩
  · rw [if_neg hfault]
    exact ⟨hkept, φ', hsaid.say hnext hcmd, hat⟩

/-- A command is sent where its phase allows it. -/
theorem polite_putTagged {cmd : Cmd} {φ φ' : Phase} (hkept : cfg.Kept e.data)
    (hsaid : Speaks Phase.next cfg.allows .greeting e.hist.sent φ) (hnext : φ.next cmd = some φ')
    (hcmd : cfg.allows cmd) (hat : φ'.At cfg e.data.folder s) :
    Polite cfg conf pton q (putTagged cmd s c e) :=
  polite_putln (e := { e with data := { e.data with tag := e.data.tag + 1 } })
    ⟨hkept.user, hkept.pass, hkept.nocrammd5, hkept.nologin, hkept.folders⟩ hsaid hnext hcmd hat

/-! ## The states -/

/-- The next state has the dialogue where it is. -/
theorem Talks.move {s' : State} {d : FetchImapData} {b : List Received} {hist : History}
    (h : Talks cfg s e) (hkept : cfg.Kept d) (hsent : hist.sent = e.hist.sent)
    (hat : ∀ φ : Phase, φ.At cfg e.data.folder s → φ.At cfg d.folder s') :
    Talks cfg s' { e with data := d, inbuf := b, hist := hist } := by
  obtain ⟨φ, hφ, hs⟩ := h.said
  refine ⟨hkept, φ, ?_, hat φ hs⟩
  show Speaks Phase.next cfg.allows .greeting hist.sent φ
  rwa [hsent]

/-- The same with nothing changed but the state and the lines that are left. -/
theorem Talks.turn {s' : State} {b : List Received} (h : Talks cfg s e)
    (hat : ∀ φ : Phase, φ.At cfg e.data.folder s → φ.At cfg e.data.folder s') :
    Talks cfg s' { e with inbuf := b } := h.move h.kept rfl hat

theorem polite_stateInit (hs : c.state = .init) (h : Talks cfg c.state e) :
    Polite cfg conf pton q (stateInit c e) := by
  rw [hs] at h
  exact h.move ⟨h.kept.user, h.kept.pass, h.kept.nocrammd5, h.kept.nologin, h.kept.folders⟩ rfl
    fun _ hat => hat

theorem polite_stateConnect (hs : c.state = .connect) (h : Talks cfg c.state e) :
    Polite cfg conf pton q (stateConnect c e) := by
  unfold stateConnect
  by_cases hfault : e.fault
  · rw [if_pos hfault]
    exact h.dialogue
  · rw [if_neg hfault]
    rw [hs] at h
    exact h.turn fun _ hat => hat

/-- CAPABILITY is the first command, unless the greeting says PREAUTH. -/
theorem polite_stateConnected (hs : c.state = .connected) (h : Talks cfg c.state e) :
    Polite cfg conf pton q (stateConnected c e) := by
  refine polite_getln h fun line b => ?_
  rw [hs] at h
  obtain ⟨φ, hsaid, rfl⟩ := h.said
  dsimp only
  split_ifs
  · exact h.turn fun _ hat => .inl hat
  · exact h.dialogue
  · exact polite_putTagged h.kept hsaid rfl trivial rfl

theorem polite_stateCapability1 (hs : c.state = .capability1) (h : Talks cfg c.state e) :
    Polite cfg conf pton q (stateCapability1 c e) := by
  refine polite_getln h fun line b => ?_
  rw [hs] at h
  dsimp only
  split_ifs
  · exact h.dialogue
  · exact h.move ⟨h.kept.user, h.kept.pass, h.kept.nocrammd5, h.kept.nologin, h.kept.folders⟩ rfl
      fun _ hat => hat

/-- How the login goes on is what the settings and the capabilities say. -/
theorem polite_stateCapability2 (hs : c.state = .capability2) (h : Talks cfg c.state e) :
    Polite cfg conf pton q (stateCapability2 c e) := by
  refine polite_getOkay h fun b => ?_
  rw [hs] at h
  obtain ⟨φ, hsaid, rfl⟩ := h.said
  have hcram := h.kept.nocrammd5
  have hlogin := h.kept.nologin
  dsimp only
  split_ifs with hauth hplain
  · have hno : cfg.nocrammd5 = false := by
      rw [Bool.and_eq_true, Bool.not_eq_true', hcram] at hauth
      exact hauth.1
    exact polite_putTagged h.kept hsaid rfl hno ⟨rfl, hno⟩
  · have hno : cfg.nologin = false := by
      rw [Bool.not_eq_true', hlogin] at hplain
      exact hplain
    split
    · exact h.dialogue
    · next user huser =>
      exact polite_putTagged h.kept hsaid rfl hno ⟨hno, user, h.kept.user.symm.trans huser, rfl⟩
  · exact h.dialogue

/-- The response to the challenge has the password, and is sent once. -/
theorem polite_stateCramMd5Auth (hs : c.state = .cramMd5Auth) (h : Talks cfg c.state e) :
    Polite cfg conf pton q (stateCramMd5Auth pton c e) := by
  refine polite_getln h fun line b => ?_
  rw [hs] at h
  obtain ⟨φ, hsaid, rfl, hno⟩ := h.said
  dsimp only
  split_ifs
  · exact h.dialogue
  · split
    · exact h.dialogue
    · exact polite_putln h.kept hsaid rfl hno rfl

/-- The name is sent when LOGIN has been answered by a continuation. -/
theorem polite_stateLogin (hs : c.state = .login) (h : Talks cfg c.state e) :
    Polite cfg conf pton q (stateLogin c e) := by
  refine polite_getln h fun line b => ?_
  rw [hs] at h
  obtain ⟨φ, hsaid, hno, u, hu, rfl⟩ := h.said
  split
  · next user pass huser hpass =>
    have hcfg : cfg.user = some user := h.kept.user.symm.trans huser
    obtain rfl : user = u := Option.some.inj (hcfg.symm.trans hu)
    exact polite_putln h.kept hsaid (if_pos rfl) ⟨hno, hu⟩
      ⟨hno, pass, h.kept.pass.symm.trans hpass, rfl⟩
  · exact h.dialogue

/-- The password, behind the name. -/
theorem polite_stateUser (hs : c.state = .user) (h : Talks cfg c.state e) :
    Polite cfg conf pton q (stateUser c e) := by
  refine polite_getln h fun line b => ?_
  rw [hs] at h
  obtain ⟨φ, hsaid, hno, p, hp, rfl⟩ := h.said
  split
  · exact h.dialogue
  · next pass hpass =>
    have hcfg : cfg.pass = some pass := h.kept.pass.symm.trans hpass
    obtain rfl : pass = p := Option.some.inj (hcfg.symm.trans hp)
    exact polite_putln h.kept hsaid (if_pos rfl) ⟨hno, hp⟩ rfl

theorem polite_statePass (hs : c.state = .pass) (h : Talks cfg c.state e) :
    Polite cfg conf pton q (statePass c e) := by
  refine polite_getOkay h fun b => ?_
  rw [hs] at h
  exact h.turn fun _ hat => .inr (.inl hat)

/-- SELECT announces the name of the folder. -/
theorem polite_stateSelect1 (hs : c.state = .select1) (h : Talks cfg c.state e) :
    Polite cfg conf pton q (stateSelect1 c e) := by
  rw [hs] at h
  obtain ⟨φ, hsaid, hat⟩ := h.said
  unfold stateSelect1
  split
  · exact h.dialogue
  · next name hname =>
    have hnext : φ.next (.select name.length) = some (.name name.length) := by
      rcases hat with rfl | rfl | rfl <;> rfl
    exact polite_putTagged (e := { e with hist := { e.hist with
        selected := [], storing := [], stored := [] } })
      h.kept hsaid hnext trivial ⟨name, h.kept.folders ▸ hname, rfl⟩

/-- The name of the folder, which was announced. -/
theorem polite_stateSelect2 (hs : c.state = .select2) (h : Talks cfg c.state e) :
    Polite cfg conf pton q (stateSelect2 c e) := by
  refine polite_getln h fun line b => ?_
  rw [hs] at h
  obtain ⟨φ, hsaid, n, hn, rfl⟩ := h.said
  dsimp only
  split
  · exact h.dialogue
  · next name hname =>
    rw [h.kept.folders] at hname
    obtain rfl : name = n := Option.some.inj (hname.symm.trans hn)
    exact polite_putln h.kept hsaid (if_pos rfl) (List.mem_of_getElem? hn) rfl

/-- The lines of the answer to SELECT, by induction on what is in the buffer. -/
theorem polite_select3Loop (hs : c.state = .select3) (b : List Received)
    (h : Talks cfg c.state e) : Polite cfg conf pton q (select3Loop c b e) := by
  induction b with
  | nil => exact ⟨h.kept, h.said⟩
  | cons r b ih =>
    cases r with
    | broken => exact h.dialogue
    | line s stale =>
      unfold select3Loop
      split
      · split
        · rw [hs] at h
          exact h.move
            ⟨h.kept.user, h.kept.pass, h.kept.nocrammd5, h.kept.nologin, h.kept.folders⟩ rfl
            fun _ hat => hat
        · exact ih
      · exact h.dialogue

theorem polite_stateSelect4 (hs : c.state = .select4) (h : Talks cfg c.state e) :
    Polite cfg conf pton q (stateSelect4 c e) := by
  refine polite_getOkay h fun b => ?_
  rw [hs] at h
  obtain ⟨φ, hsaid, rfl⟩ := h.said
  dsimp only
  split_ifs
  · exact polite_putTagged h.kept hsaid rfl trivial rfl
  · exact h.turn fun _ hat => hat

/-- SEARCH, in the folder that is selected. -/
theorem polite_stateSearch1 (hs : c.state = .search1) (h : Talks cfg c.state e) :
    Polite cfg conf pton q (stateSearch1 c e) := by
  rw [hs] at h
  obtain ⟨φ, hsaid, rfl⟩ := h.said
  exact polite_putTagged h.kept hsaid rfl trivial rfl

theorem polite_stateSearch2 (hs : c.state = .search2) (h : Talks cfg c.state e) :
    Polite cfg conf pton q (stateSearch2 c e) := by
  refine polite_getln h fun line b => ?_
  rw [hs] at h
  dsimp only
  split_ifs
  · exact h.dialogue
  · split
    · exact h.dialogue
    · exact h.move ⟨h.kept.user, h.kept.pass, h.kept.nocrammd5, h.kept.nologin, h.kept.folders⟩
        rfl fun _ hat => hat

/-- A folder without mails is closed at once. -/
theorem polite_stateSearch3 (hs : c.state = .search3) (h : Talks cfg c.state e) :
    Polite cfg conf pton q (stateSearch3 c e) := by
  refine polite_getOkay h fun b => ?_
  rw [hs] at h
  obtain ⟨φ, hsaid, rfl⟩ := h.said
  have hkept : cfg.Kept { e.data with
      total := e.data.wanted.length
      foldersTotal := e.data.foldersTotal + e.data.wanted.length } :=
    ⟨h.kept.user, h.kept.pass, h.kept.nocrammd5, h.kept.nologin, h.kept.folders⟩
  dsimp only
  split_ifs
  · exact polite_putTagged hkept hsaid rfl trivial rfl
  · exact h.move hkept rfl fun _ hat => hat

/-- What is sent next: a STORE, an EXPUNGE, a FETCH or a CLOSE. -/
theorem polite_stateNext (hs : c.state = .next) (h : Talks cfg c.state e) :
    Polite cfg conf pton q (stateNext c e) := by
  have h' := h
  rw [hs] at h
  obtain ⟨φ, hsaid, rfl⟩ := h.said
  have hkept : ∀ dropped kept, cfg.Kept { e.data with dropped := dropped, kept := kept } :=
    fun _ _ => ⟨h.kept.user, h.kept.pass, h.kept.nocrammd5, h.kept.nologin, h.kept.folders⟩
  unfold stateNext
  split
  · next uid dropped hdropped => exact polite_putTagged (hkept dropped _) hsaid rfl trivial rfl
  · split
    · next uid kept hkept' => exact polite_putTagged (hkept _ kept) hsaid rfl trivial rfl
    · by_cases hpurge : c.flags.purge
      · rw [if_pos hpurge]
        split_ifs
        · exact polite_putTagged h.kept hsaid rfl trivial rfl
        · exact h'
      · rw [if_neg hpurge]
        split
        · split_ifs
          · exact h'
          · exact polite_putTagged h.kept hsaid rfl trivial rfl
        · exact polite_putTagged h.kept hsaid rfl trivial rfl

theorem polite_stateBody (hs : c.state = .body) (h : Talks cfg c.state e) :
    Polite cfg conf pton q (stateBody conf c e) := by
  refine polite_getln h fun line b => ?_
  rw [hs] at h
  split
  · split
    · exact h.dialogue
    · split_ifs
      · exact h.dialogue
      · exact h.move ⟨h.kept.user, h.kept.pass, h.kept.nocrammd5, h.kept.nologin, h.kept.folders⟩
          rfl fun _ hat => hat
    · exact h.dialogue
  · exact h.dialogue

/-- The last line of a mail hands it out. -/
theorem polite_lastLine {line : List Char} {m : Mail FetchImapMail} (hs : c.state = .line)
    (h : Talks cfg c.state e) : Polite cfg conf pton q (lastLine c line m e) := by
  unfold lastLine
  dsimp only
  split
  · exact h.dialogue
  · rw [hs] at h
    split_ifs
    · exact h.dialogue
    · exact ⟨h.kept, h.said⟩
    · exact h.dialogue
    · exact h.move ⟨h.kept.user, h.kept.pass, h.kept.nocrammd5, h.kept.nologin, h.kept.folders⟩
        rfl fun _ hat => hat

/-- The lines of a mail, by induction on what is in the buffer. -/
theorem polite_lineLoop (hs : c.state = .line) (b : List Received) :
    ∀ (m : Mail FetchImapMail) (e : Env), Talks cfg c.state e →
      Polite cfg conf pton q (lineLoop c b m e) := by
  induction b with
  | nil => exact fun m e h => ⟨h.kept, h.said⟩
  | cons r b ih =>
    intro m e h
    cases r with
    | broken => exact h.dialogue
    | line s stale =>
      unfold lineLoop
      split_ifs
      · exact ih m e h
      · exact polite_lastLine hs ⟨h.kept, h.said⟩
      · exact h.dialogue
      · exact ih _ _ (h.move
          ⟨h.kept.user, h.kept.pass, h.kept.nocrammd5, h.kept.nologin, h.kept.folders⟩ rfl
          fun _ hat => hat)

/-- A mail that is committed while the fetch goes on sends nothing. -/
theorem polite_commit (h : Talks cfg s e) (m : Mail FetchImapMail) :
    Committed (fetcher conf pton) (Talks cfg s) (Said cfg) (imapCommit m e) := by
  unfold imapCommit
  split
  · exact h.dialogue
  · split <;> exact h.move
      ⟨h.kept.user, h.kept.pass, h.kept.nocrammd5, h.kept.nologin, h.kept.folders⟩ rfl
      fun _ hat => hat

/-- Nor behind its end. -/
theorem said_commit (h : Said cfg e) (m : Mail FetchImapMail) :
    Committed (fetcher conf pton) (Said cfg) (Said cfg) (imapCommit m e) := by
  unfold imapCommit
  split
  · exact h
  · split <;> exact h

theorem polite_stateMail (hs : c.state = .mail) (h : Talks cfg c.state e) :
    Polite cfg conf pton q (stateMail c e) := by
  refine polite_getOkay h fun b => ?_
  rw [hs] at h
  exact Outcome.mail h.dialogue (fun _ _ => h.turn fun _ hat => hat)
    fun _ _ _ h' _ => polite_commit h' _

theorem polite_stateCommit (hs : c.state = .commit) (h : Talks cfg c.state e) :
    Polite cfg conf pton q (stateCommit c e) := by
  refine polite_getOkay h fun b => ?_
  rw [hs] at h
  exact h.move ⟨h.kept.user, h.kept.pass, h.kept.nocrammd5, h.kept.nologin, h.kept.folders⟩ rfl
    fun _ hat => hat

theorem polite_stateExpunge (hs : c.state = .expunge) (h : Talks cfg c.state e) :
    Polite cfg conf pton q (stateExpunge c e) := by
  refine polite_getOkay h fun b => ?_
  rw [hs] at h
  exact h.turn fun _ hat => hat

/-- Behind a folder comes the next one, or LOGOUT. -/
theorem polite_stateClose (hs : c.state = .close) (h : Talks cfg c.state e) :
    Polite cfg conf pton q (stateClose c e) := by
  refine polite_getOkay h fun b => ?_
  rw [hs] at h
  obtain ⟨φ, hsaid, rfl⟩ := h.said
  have hkept : cfg.Kept { e.data with folder := e.data.folder + 1 } :=
    ⟨h.kept.user, h.kept.pass, h.kept.nocrammd5, h.kept.nologin, h.kept.folders⟩
  dsimp only
  split_ifs
  · exact h.move hkept rfl fun _ hat => .inr (.inr hat)
  · exact polite_putTagged hkept hsaid rfl trivial rfl

theorem polite_stateQuit (h : Talks cfg c.state e) : Polite cfg conf pton q (stateQuit c e) :=
  polite_getOkay h fun _ => h.dialogue

/-- A call of a state function keeps to the protocol. -/
theorem polite_state (h : Talks cfg c.state e) :
    Polite cfg conf pton q (state conf pton c e) := by
  unfold state
  cases hs : c.state with
  | init => exact polite_stateInit hs h
  | connect => exact polite_stateConnect hs h
  | connected => exact polite_stateConnected hs h
  | capability1 => exact polite_stateCapability1 hs h
  | capability2 => exact polite_stateCapability2 hs h
  | cramMd5Auth => exact polite_stateCramMd5Auth hs h
  | login => exact polite_stateLogin hs h
  | user => exact polite_stateUser hs h
  | pass => exact polite_statePass hs h
  | select1 => exact polite_stateSelect1 hs h
  | select2 => exact polite_stateSelect2 hs h
  | select3 => exact polite_select3Loop hs e.inbuf h
  | select4 => exact polite_stateSelect4 hs h
  | search1 => exact polite_stateSearch1 hs h
  | search2 => exact polite_stateSearch2 hs h
  | search3 => exact polite_stateSearch3 hs h
  | next => exact polite_stateNext hs h
  | body => exact polite_stateBody hs h
  | line => exact polite_lineLoop hs e.inbuf c.mail e h
  | mail => exact polite_stateMail hs h
  | commit => exact polite_stateCommit hs h
  | expunge => exact polite_stateExpunge hs h
  | close => exact polite_stateClose hs h
  | quit => exact polite_stateQuit h

end

/-! ## Every run -/

/-- The invariant of the dialogue. -/
def polite (cfg : Settings) (conf : Conf) (pton : List Char → Option (List Char)) :
    LoopInv (fetcher conf pton) conf noCallGuard noCommitGuard where
  run _ c e := Talks cfg c.state e
  done _ := Said cfg
  dead := Said cfg
  run_dead h := h.dialogue
  done_dead h := h
  dead_abort h := h
  dead_auxfree h := h
  run_flags _ _ h := h
  run_input i h := by cases i <;> exact ⟨h.kept, h.said⟩
  done_input i h := by cases i <;> exact h
  state h _ _ := polite_state h
  commit _ h _ _ := polite_commit h _
  commit_done _ h _ _ := said_commit h _

/-- Where a run with these settings starts. -/
def Settings.begin (cfg : Settings) (conf : Conf) (pton : List Char → Option (List Char))
    (poll : Bool) (only : FetchOnly) : Loop Env State FetchImapMail :=
  Imap.begin conf pton poll only cfg.user cfg.pass cfg.nocrammd5 cfg.nologin cfg.folders

section
variable {cfg : Settings} {conf : Conf} {pton : List Char → Option (List Char)} {poll : Bool}
  {only : FetchOnly} {l : Loop Env State FetchImapMail}

/-- In every run, what was said is the beginning of a dialogue. -/
theorem said_reach (h : Reach (step (fetcher conf pton) conf) anyStep
      (cfg.begin conf pton poll only) l) : Said cfg l.data := by
  have hinv : (polite cfg conf pton).Holds l :=
    LoopInv.holds_reach_any ⟨⟨rfl, rfl, rfl, rfl, rfl⟩, .greeting, Speaks.nil, rfl⟩ h
  exact hinv.dead

/-- Whatever the server sends and whenever it does, all that the fetcher has sent is a dialogue
of the protocol, with nothing in it that the account's settings do not allow. -/
theorem conversation_follows (h : Reach (step (fetcher conf pton) conf) anyStep
      (cfg.begin conf pton poll only) l) :
    ∃ φ, exec Phase.next .greeting l.data.hist.sent = some φ ∧
      ∀ cmd ∈ l.data.hist.sent, cfg.allows cmd := by
  obtain ⟨φ, hφ⟩ := said_reach h
  exact ⟨φ, hφ.phase, hφ.allowed⟩

/-- A step uses up a secret that its phase still has. -/
theorem Phase.secrets_next {φ φ' : Phase} {cmd : Cmd} (h : φ.next cmd = some φ') :
    (if cmd.secret then 1 else 0) + φ'.secrets ≤ φ.secrets + if false then 1 else 0 := by
  unfold Phase.next at h
  split at h
  case h_5 | h_6 | h_10 =>
    -- the lines whose length was announced
    split_ifs at h
    obtain rfl := Option.some.inj h
    simp [Cmd.secret, Phase.secrets]
  all_goals cases h
  all_goals simp [Cmd.secret, Phase.secrets]

/-- A server that asks for the password again and again is not given it twice. -/
theorem secret_once (h : Reach (step (fetcher conf pton) conf) anyStep
      (cfg.begin conf pton poll only) l) : l.data.hist.sent.countP Cmd.secret ≤ 1 := by
  obtain ⟨φ, hφ⟩ := said_reach h
  have hcount := countP_le (p := Cmd.secret) (q := fun _ => false) Phase.secrets
    (fun _ _ _ => Phase.secrets_next) hφ.phase
  rw [List.countP_false] at hcount
  exact Nat.le_trans (Nat.le_add_right _ _) hcount

end

/-! ## Logging in -/

/-- An account with a user and a password. -/
def sampleSettings : Settings where
  user := some ['u']
  pass := some ['p', 'w']
  nocrammd5 := true
  nologin := false
  folders := [['a']]

/-- Log in with the password. -/
def logIn : List (Act Input) :=
  [.pass, .pass, srv ['*', ' ', 'O', 'K'], .pass,
    srv ['*', ' ', 'I', 'M', 'A', 'P', '4', 'r', 'e', 'v', '1'], .pass, srv ['1', ' ', 'O', 'K'],
    .pass, srv ['+'], .pass, srv ['+'], .pass]

/-- A login by LOGIN, with the name and the password as literals. -/
theorem logIn_runs :
    (exec (step (fetcher {} fun _ => none) {}) (sampleSettings.begin {} (fun _ => none) false .all)
      logIn).isSome = true := by
  decide

/-- The four commands of that login. -/
theorem conversation_follows_logIn :
    ∃ l : Loop Env State FetchImapMail,
      l.data.hist.sent = [.capability, .login 1, .user ['u'] 2, .pass ['p', 'w']] ∧
        ∃ φ, exec Phase.next .greeting l.data.hist.sent = some φ ∧
          ∀ cmd ∈ l.data.hist.sent, sampleSettings.allows cmd :=
  ⟨_, by decide +kernel, conversation_follows (reach_get logIn_runs)⟩

/-- One of them has the password. -/
theorem secret_once_logIn :
    ∃ l : Loop Env State FetchImapMail,
      l.data.hist.sent = [.capability, .login 1, .user ['u'] 2, .pass ['p', 'w']] ∧
        l.data.hist.sent.countP Cmd.secret ≤ 1 :=
  ⟨_, by decide +kernel, secret_once (reach_get logIn_runs)⟩

end Fdm.Imap
