import Fdm.Pop3.Invariant
import Fdm.Lib.Dialogue

/-!
# What the POP3 fetcher says to the server

`Phase.next` is the client's side of the protocol. A session begins with the login and `STAT`;
a mail is retrieved right after it has been listed, and under the number it was listed with;
after `QUIT` there can only be another session.

Whatever the server sends, the fetcher keeps to it (`pop3_conversation`), and it gives the
password away at most once for each session (`password_once`).
-/

namespace Fdm.Pop3.Conversation

open Fdm.Fetch Lib.Dialogue Lib.Runs

/-! ## The protocol -/

/-- How far the dialogue has come. -/
inductive Phase
  | greeting
  | user
  | authorized
  | stat
  | transaction
  | listed (n : ℕ)
  | bye
deriving DecidableEq, Repr

namespace Phase

/-- What may be said in a session whose mails are known. -/
def serve : Cmd → Option Phase
  | .list n => some (listed n)
  | .dele _ => some transaction
  | .quit => some bye
  | _ => none

/-- What may begin a session. -/
def login : Cmd → Option Phase
  | .apop _ _ => some authorized
  | .user _ => some user
  | _ => none

/-- What may be said next. -/
def next : Phase → Cmd → Option Phase
  | greeting, cmd | bye, cmd => login cmd
  | user, .pass _ => some authorized
  | authorized, .stat => some stat
  | stat, .uidl => some transaction
  | stat, cmd | transaction, cmd => serve cmd
  | listed n, .retr n' => if n' = n then some transaction else none
  | _, _ => none

/-- How often the password can still be asked for in the session. -/
def secrets : Phase → ℕ
  | greeting | user | bye => 1
  | _ => 0

end Phase

/-- The command sends the password, or what is made of it. -/
def secret : Cmd → Bool
  | .apop _ _ | .pass _ => true
  | _ => false

/-! ## The account -/

/-- The settings of an account. -/
structure Settings where
  user : List Char
  pass : List Char
  apop : Bool
  uidl : Bool

namespace Settings

/-- What the settings allow to be said. `APOP` signs what is in angle brackets in the greeting,
and the password behind it. -/
def allows (cfg : Settings) : Cmd → Prop
  | .apop user src => cfg.apop = true ∧ user = cfg.user ∧
      ∃ stamp, src = '<' :: stamp ++ ['>'] ++ cfg.pass ∧ '>' ∉ stamp
  | .user user => user = cfg.user
  | .pass pass => pass = cfg.pass
  | .uidl => cfg.uidl = true
  | _ => True

/-- The data still has the settings in it. -/
structure Kept (cfg : Settings) (d : FetchPop3Data) : Prop where
  user : d.user = cfg.user
  pass : d.pass = cfg.pass
  apop : d.apop = cfg.apop
  uidl : d.uidl = cfg.uidl

end Settings

/-! ## The fetcher -/

/-- Where the dialogue is in a state, with the mail that is being fetched. -/
def Phase.At (cfg : Settings) (aux : Option FetchPop3Mail) (φ : Phase) : State → Prop
  | .init | .connect | .connected => φ = greeting ∨ φ = bye
  | .user => φ = user
  | .stat => φ = authorized
  | .first => φ = stat
  | .cache1 | .cache2 | .cache3 => φ = transaction ∧ cfg.uidl = true
  | .next => φ = stat ∨ φ = transaction
  | .delete | .retr | .line => φ = transaction
  | .list => ∃ mail, aux = some mail ∧ φ = listed mail.idx
  | .reconnect | .quit => φ = bye

/-- What has been said is a dialogue. -/
def Said (cfg : Settings) (e : Env) : Prop :=
  ∃ φ, Speaks Phase.next cfg.allows .greeting (e.hist.sent.map Sent.cmd) φ

/-- It has come as far as the state says. -/
structure Talks (cfg : Settings) (s : State) (aux : Option FetchPop3Mail) (e : Env) : Prop where
  kept : cfg.Kept e.data
  said : ∃ φ, Speaks Phase.next cfg.allows .greeting (e.hist.sent.map Sent.cmd) φ ∧ φ.At cfg aux s

/-- What a state relies on has the dialogue so far. -/
theorem Talks.dialogue {cfg : Settings} {s : State} {aux : Option FetchPop3Mail} {e : Env}
    (h : Talks cfg s aux e) : Said cfg e := by
  obtain ⟨φ, hφ, -⟩ := h.said
  exact ⟨φ, hφ⟩

/-- What a state function has to give back. -/
def Polite (cfg : Settings) (conf : Conf) (q : List (Mail FetchPop3Mail)) : Result → Prop :=
  Outcome conf (fetcher conf) (fun _ c e => Talks cfg c.state c.mail.auxdata e) (fun _ => Said cfg)
    (Said cfg) q

section
variable {cfg : Settings} {conf : Conf} {q : List (Mail FetchPop3Mail)} {c : Ctx} {e : Env}
  {s : State} {aux : Option FetchPop3Mail}

/-! ## Sending and receiving -/

/-- Reading a line sends nothing. -/
theorem polite_getln {k : List Char → List Char → Env → Result}
    (h : Talks cfg c.state c.mail.auxdata e)
    (hk : ∀ line stale b, Polite cfg conf q (k line stale { e with inbuf := b })) :
    Polite cfg conf q (getln c e k) :=
  getln_cases (P := Polite cfg conf q) (show Polite cfg conf q (.block, c, e) from h) h.dialogue
    fun line stale b _ => hk line stale b

/-- Neither does waiting for an answer that is to be OK. -/
theorem polite_getOkay {k : List Char → Env → Result} (h : Talks cfg c.state c.mail.auxdata e)
    (hk : ∀ line b, Polite cfg conf q (k line { e with inbuf := b })) :
    Polite cfg conf q (getOkay c e k) := by
  refine polite_getln h fun line _ b => ?_
  by_cases hok : okay line
  · rw [if_pos hok]
    exact hk line b
  · rw [if_neg hok]
    exact h.dialogue

/-- A line is sent that the dialogue allows and that leads to where the next state has it. -/
theorem polite_putln {cmd : Cmd} {about : Option FetchPop3Mail} {φ φ' : Phase}
    (hkept : cfg.Kept e.data)
    (hsaid : Speaks Phase.next cfg.allows .greeting (e.hist.sent.map Sent.cmd) φ)
    (hnext : φ.next cmd = some φ') (hcmd : cfg.allows cmd) (hat : φ'.At cfg c.mail.auxdata s) :
    Polite cfg conf q (putln cmd about s c e) := by
  unfold putln
  by_cases hfault : e.fault
  · rw [if_pos hfault]
    exact ⟨φ, hsaid⟩
  · rw [if_neg hfault]
    refine ⟨hkept, φ', ?_, hat⟩
    show Speaks Phase.next cfg.allows .greeting
      ((e.hist.sent ++ [(⟨cmd, about, e.hist.listing⟩ : Sent)]).map Sent.cmd) φ'
    rw [List.map_append]
    exact hsaid.say hnext hcmd

/-- The next state has the dialogue where it is. -/
theorem Talks.move {s' : State} {aux' : Option FetchPop3Mail} {d : FetchPop3Data}
    {b : List Received} {hist : History} (h : Talks cfg s aux e) (hkept : cfg.Kept d)
    (hsent : hist.sent = e.hist.sent)
    (hat : ∀ φ : Phase, φ.At cfg aux s → φ.At cfg aux' s') :
    Talks cfg s' aux' { e with data := d, inbuf := b, hist := hist } := by
  obtain ⟨φ, hφ, hs⟩ := h.said
  refine ⟨hkept, φ, ?_, hat φ hs⟩
  show Speaks Phase.next cfg.allows .greeting (hist.sent.map Sent.cmd) φ
  rwa [hsent]

/-! ## Login -/

theorem polite_stateInit (hs : c.state = .init) (h : Talks cfg c.state c.mail.auxdata e) :
    Polite cfg conf q (stateInit c e) := by
  rw [hs] at h
  exact h.move ⟨h.kept.user, h.kept.pass, h.kept.apop, h.kept.uidl⟩ rfl fun _ hat => hat

theorem polite_stateConnect (hs : c.state = .connect) (h : Talks cfg c.state c.mail.auxdata e) :
    Polite cfg conf q (stateConnect c e) := by
  unfold stateConnect
  split_ifs
  · exact h.dialogue
  · rw [hs] at h
    exact h.move h.kept rfl fun _ hat => hat

/-- The stamp of a greeting is in angle brackets, and ends at the first that closes. -/
theorem apopSource_spec {line src : List Char} (h : apopSource line = some src) :
    ∃ stamp, src = '<' :: stamp ++ ['>'] ∧ '>' ∉ stamp := by
  unfold apopSource at h
  split at h
  · cases h
  · next x s hdrop =>
    have hx : x = '<' := by
      have hhead := List.head?_dropWhile_not (fun x => decide (x ≠ '<')) line
      rw [hdrop] at hhead
      simpa using hhead
    split_ifs at h
    obtain rfl := Option.some.inj h
    refine ⟨s.takeWhile (· ≠ '>'), by rw [hx], fun hmem => ?_⟩
    simpa using List.mem_takeWhile_imp hmem

/-- Behind the greeting APOP or USER is sent, as the settings say. -/
theorem polite_stateConnected (hs : c.state = .connected)
    (h : Talks cfg c.state c.mail.auxdata e) : Polite cfg conf q (stateConnected c e) := by
  refine polite_getOkay h fun line b => ?_
  rw [hs] at h
  obtain ⟨φ, hsaid, hat⟩ := h.said
  split
  · next src hsrc =>
    split_ifs at hsrc with hapop
    obtain ⟨stamp, rfl, hstamp⟩ := apopSource_spec hsrc
    have hnext : φ.next (.apop e.data.user ('<' :: stamp ++ ['>'] ++ e.data.pass)) =
        some .authorized := by
      rcases hat with rfl | rfl <;> rfl
    exact polite_putln h.kept hsaid hnext
      ⟨h.kept.apop.symm.trans hapop, h.kept.user, stamp, by rw [h.kept.pass], hstamp⟩ rfl
  · have hnext : φ.next (.user e.data.user) = some .user := by
      rcases hat with rfl | rfl <;> rfl
    exact polite_putln h.kept hsaid hnext h.kept.user rfl

/-- The password, when the name was accepted. -/
theorem polite_stateUser (hs : c.state = .user) (h : Talks cfg c.state c.mail.auxdata e) :
    Polite cfg conf q (stateUser c e) := by
  refine polite_getOkay h fun line b => ?_
  rw [hs] at h
  obtain ⟨φ, hsaid, rfl⟩ := h.said
  exact polite_putln h.kept hsaid rfl h.kept.pass rfl

/-- STAT, when the login was accepted. -/
theorem polite_stateStat (hs : c.state = .stat) (h : Talks cfg c.state c.mail.auxdata e) :
    Polite cfg conf q (stateStat c e) := by
  refine polite_getOkay h fun line b => ?_
  rw [hs] at h
  obtain ⟨φ, hsaid, rfl⟩ := h.said
  exact polite_putln h.kept hsaid rfl trivial rfl

/-! ## The mails on the server -/

/-- The answer to STAT: the listing is asked for, the next mail, or the end. -/
theorem polite_stateFirst (hs : c.state = .first) (h : Talks cfg c.state c.mail.auxdata e) :
    Polite cfg conf q (stateFirst c e) := by
  refine polite_getOkay h fun line b => ?_
  rw [hs] at h
  obtain ⟨φ, hsaid, rfl⟩ := h.said
  split
  · next num _ _ =>
    have hkept : cfg.Kept { e.data with num := num, cur := 0 } :=
      ⟨h.kept.user, h.kept.pass, h.kept.apop, h.kept.uidl⟩
    dsimp only
    split_ifs with hnum htotal huidl
    · exact h.move hkept rfl fun _ hat => .inl hat
    · exact polite_putln hkept hsaid rfl trivial rfl
    · exact h.move ⟨h.kept.user, h.kept.pass, h.kept.apop, h.kept.uidl⟩ rfl
        fun _ hat => .inl hat
    · have hcfg : cfg.uidl = true := by
        rw [← h.kept.uidl]
        simpa using huidl
      exact polite_putln hkept hsaid rfl hcfg ⟨rfl, hcfg⟩
  · exact h.dialogue

theorem polite_stateCache1 (hs : c.state = .cache1) (h : Talks cfg c.state c.mail.auxdata e) :
    Polite cfg conf q (stateCache1 c e) := by
  refine polite_getOkay h fun line b => ?_
  rw [hs] at h
  exact h.move ⟨h.kept.user, h.kept.pass, h.kept.apop, h.kept.uidl⟩ rfl fun _ hat => hat

/-- The lines of the listing, by induction on what is in the buffer. -/
theorem polite_cache2Loop (hs : c.state = .cache2) (b : List Received) :
    ∀ e : Env, Talks cfg c.state c.mail.auxdata e → Polite cfg conf q (cache2Loop c b e) := by
  induction b with
  | nil =>
    intro e h
    rw [cache2Loop]
    split_ifs
    · rw [hs] at h
      exact h.move h.kept rfl fun _ hat => hat
    · exact ⟨h.kept, h.said⟩
  | cons r b ih =>
    intro e h
    have h' := h
    rw [hs] at h'
    cases r with
    | broken =>
      rw [cache2Loop]
      split_ifs
      · exact h'.move h.kept rfl fun _ hat => hat
      · exact h.dialogue
    | line s stale =>
      rw [cache2Loop]
      split_ifs
      · exact h'.move h.kept rfl fun _ hat => hat
      · split
        · split_ifs
          · exact h.dialogue
          · split
            · exact h.dialogue
            · split_ifs
              · exact h.dialogue
              · exact ih _ (h.move ⟨h.kept.user, h.kept.pass, h.kept.apop, h.kept.uidl⟩ rfl
                  fun _ hat => hat)
        · exact h.dialogue

theorem polite_cache3Select (hs : c.state = .cache3) (h : Talks cfg c.state c.mail.auxdata e) :
    Polite cfg conf q (cache3Select c e) := by
  rw [hs] at h
  obtain ⟨φ, hsaid, rfl, hcfg⟩ := h.said
  unfold cache3Select
  split
  · exact h.dialogue
  · next cacheq hload =>
    have hkept : cfg.Kept (buildWantq (weed e.data.serverq cacheq) e).data :=
      ⟨h.kept.user, h.kept.pass, h.kept.apop, h.kept.uidl⟩
    dsimp only
    split_ifs
    · exact polite_putln hkept hsaid rfl trivial rfl
    · exact h.move hkept rfl fun _ hat => .inr hat.1

theorem polite_stateCache3 (hs : c.state = .cache3) (h : Talks cfg c.state c.mail.auxdata e) :
    Polite cfg conf q (stateCache3 c e) := by
  refine polite_getln h fun line stale b => ?_
  split_ifs
  · exact h.dialogue
  · exact polite_cache3Select hs ⟨h.kept, h.said⟩
  · rw [hs] at h
    exact h.move ⟨h.kept.user, h.kept.pass, h.kept.apop, h.kept.uidl⟩ rfl fun _ hat => .inr hat.1

/-! ## The mails -/

/-- A command of the transaction is as good behind STAT. -/
theorem Phase.next_serve {φ φ' : Phase} {cmd : Cmd} (h : φ = .stat ∨ φ = .transaction)
    (hserve : serve cmd = some φ') : φ.next cmd = some φ' := by
  rcases h with rfl | rfl
  · cases cmd <;> first | exact hserve | cases hserve
  · exact hserve

/-- What is asked for next: a DELE, a LIST or the end. -/
theorem polite_stateNext (hs : c.state = .next) (h : Talks cfg c.state c.mail.auxdata e) :
    Polite cfg conf q (stateNext c e) := by
  have h' := h
  rw [hs] at h
  obtain ⟨φ, hsaid, hat⟩ := h.said
  unfold stateNext
  split
  · exact polite_putln h.kept hsaid (Phase.next_serve hat rfl) trivial rfl
  · split
    · split_ifs
      · exact h'
      · exact polite_putln h.kept hsaid (Phase.next_serve hat rfl) trivial rfl
    · split_ifs
      · exact polite_putln h.kept hsaid (Phase.next_serve hat rfl) trivial rfl
      · exact h'
      · exact polite_putln h.kept hsaid (Phase.next_serve hat rfl) trivial ⟨_, rfl, rfl⟩

/-- The cache file is written between two states. -/
theorem Talks.save {e' : Env} (h : Talks cfg s aux e) (hsave : Pop3.save e = some e') :
    Talks cfg s aux e' := by
  unfold Pop3.save at hsave
  split_ifs at hsave
  · obtain rfl := Option.some.inj hsave
    exact h
  · obtain rfl := Option.some.inj hsave
    exact ⟨h.kept, h.said⟩

theorem polite_stateDelete (hs : c.state = .delete) (h : Talks cfg c.state c.mail.auxdata e) :
    Polite cfg conf q (stateDelete c e) := by
  refine polite_getOkay h fun line b => ?_
  rw [hs] at h
  split
  · exact h.dialogue
  · next dropped dropq hdropq =>
    have hnext : Talks cfg .next c.mail.auxdata { e with
        inbuf := b
        data := { e.data with
          dropq := dropq
          cacheq := addCache dropped e.data.cacheq
          committed := e.data.committed + 1 }
        hist := { e.hist with acked := e.hist.acked ++ [dropped.uid] } } :=
      h.move ⟨h.kept.user, h.kept.pass, h.kept.apop, h.kept.uidl⟩ rfl fun _ hat => .inr hat
    dsimp only
    split_ifs
    · split
      · exact hnext.dialogue
      · next e' hsave => exact hnext.save hsave
    · exact hnext

/-- The answer to the QUIT of a purge, behind which a new session begins. -/
theorem polite_stateReconnect (hs : c.state = .reconnect)
    (h : Talks cfg c.state c.mail.auxdata e) : Polite cfg conf q (stateReconnect c e) := by
  refine polite_getOkay h fun line b => ?_
  rw [hs] at h
  exact h.move h.kept rfl fun _ hat => .inr hat

theorem polite_stateList (hs : c.state = .list) (h : Talks cfg c.state c.mail.auxdata e) :
    Polite cfg conf q (stateList c e) := by
  refine polite_getOkay h fun line b => ?_
  rw [hs] at h
  obtain ⟨φ, hsaid, mail, haux, rfl⟩ := h.said
  rw [haux]
  split
  · next aux' n size haux' _ =>
    obtain rfl := Option.some.inj haux'
    dsimp only
    split_ifs
    · exact h.dialogue
    · exact polite_putln ⟨h.kept.user, h.kept.pass, h.kept.apop, h.kept.uidl⟩ hsaid (if_pos rfl)
        trivial rfl
  · exact h.dialogue
  · exact h.dialogue

theorem polite_stateRetr (hs : c.state = .retr) (h : Talks cfg c.state c.mail.auxdata e) :
    Polite cfg conf q (stateRetr c e) := by
  refine polite_getOkay h fun line b => ?_
  split_ifs
  · exact h.dialogue
  · rw [hs] at h
    exact h.move ⟨h.kept.user, h.kept.pass, h.kept.apop, h.kept.uidl⟩ rfl fun _ hat => hat

/-- A mail that is committed while the fetch goes on sends nothing. -/
theorem polite_commit (h : Talks cfg s aux e) (m : Mail FetchPop3Mail) :
    Committed (fetcher conf) (Talks cfg s aux) (Said cfg) (commit m e) := by
  unfold commit
  split
  · exact h.dialogue
  · next aux' _ =>
    split
    · exact h.move ⟨h.kept.user, h.kept.pass, h.kept.apop, h.kept.uidl⟩ rfl fun _ hat => hat
    · have hkeep : Talks cfg s aux { e with
          data := { e.data with
            cacheq := addCache aux' e.data.cacheq
            committed := e.data.committed + 1 }
          hist := { e.hist with kept := e.hist.kept ++ [aux'.uid] } } :=
        h.move ⟨h.kept.user, h.kept.pass, h.kept.apop, h.kept.uidl⟩ rfl fun _ hat => hat
      dsimp only
      split_ifs
      · split
        · exact hkeep.dialogue
        · next e' hsave => exact hkeep.save hsave
      · exact hkeep

/-- Nor behind its end. -/
theorem said_commit (h : Said cfg e) (m : Mail FetchPop3Mail) :
    Committed (fetcher conf) (Said cfg) (Said cfg) (commit m e) := by
  unfold commit
  split
  · exact h
  · split
    · exact h
    · dsimp only
      split_ifs
      · split
        · exact h
        · next e' hsave =>
          unfold Pop3.save at hsave
          split_ifs at hsave <;> obtain rfl := Option.some.inj hsave <;> exact h
      · exact h

/-- The lines of a mail, by induction on what is in the buffer. -/
theorem polite_lineLoop (hs : c.state = .line) (b : List Received) :
    ∀ (m : Mail FetchPop3Mail) (e : Env), Talks cfg c.state m.auxdata e →
      Polite cfg conf q (lineLoop conf c b m e) := by
  induction b with
  | nil => exact fun m e h => ⟨h.kept, h.said⟩
  | cons r b ih =>
    intro m e h
    cases r with
    | broken => exact h.dialogue
    | line s stale =>
      rw [lineLoop]
      split_ifs
      · split
        · exact h.dialogue
        · -- nothing is being fetched any more
          rw [hs] at h
          have hnext : ∀ wantq, Talks cfg .next none
              { e with inbuf := b, data := { e.data with wantq := wantq } } := fun wantq =>
            h.move ⟨h.kept.user, h.kept.pass, h.kept.apop, h.kept.uidl⟩ rfl fun _ hat => .inr hat
          exact Outcome.mail h.dialogue (fun _ _ => hnext _) fun _ _ _ h' _ => polite_commit h' _
      · exact ih m e h
      · exact h.dialogue
      · refine ih _ _ ?_
        rw [Mail.appendLine_auxdata]
        exact h.move ⟨h.kept.user, h.kept.pass, h.kept.apop, h.kept.uidl⟩ rfl fun _ hat => hat

theorem polite_stateQuit (h : Talks cfg c.state c.mail.auxdata e) :
    Polite cfg conf q (stateQuit c e) :=
  polite_getOkay h fun _ _ => h.dialogue

/-- A call of a state function keeps to the protocol. -/
theorem polite_state (h : Talks cfg c.state c.mail.auxdata e) :
    Polite cfg conf q (state conf c e) := by
  unfold state
  cases hs : c.state with
  | init => exact polite_stateInit hs h
  | connect => exact polite_stateConnect hs h
  | connected => exact polite_stateConnected hs h
  | user => exact polite_stateUser hs h
  | stat => exact polite_stateStat hs h
  | first => exact polite_stateFirst hs h
  | cache1 => exact polite_stateCache1 hs h
  | cache2 => exact polite_cache2Loop hs e.inbuf e h
  | cache3 => exact polite_stateCache3 hs h
  | next => exact polite_stateNext hs h
  | delete => exact polite_stateDelete hs h
  | reconnect => exact polite_stateReconnect hs h
  | list => exact polite_stateList hs h
  | retr => exact polite_stateRetr hs h
  | line => exact polite_lineLoop hs e.inbuf c.mail e h
  | quit => exact polite_stateQuit h

end

/-! ## Every run -/

/-- The invariant of the dialogue. -/
def polite (cfg : Settings) (conf : Conf) :
    LoopInv (fetcher conf) conf noCallGuard noCommitGuard where
  run _ c e := Talks cfg c.state c.mail.auxdata e
  done _ := Said cfg
  dead := Said cfg
  run_dead h := h.dialogue
  done_dead h := h
  dead_abort h := h
  dead_auxfree h := h
  run_flags _ _ h := h
  run_input i h := by cases i <;> exact ⟨h.kept, h.said⟩
  done_input i h := by cases i <;> exact h
  state h _ _ := polite_state h
  commit _ h _ _ := polite_commit h _
  commit_done _ h _ _ := said_commit h _

/-- Where a run with these settings starts. -/
def Settings.begin (cfg : Settings) (conf : Conf) (poll path : Bool) (only : FetchOnly)
    (disk : Option (List Char)) : Loop Env State FetchPop3Mail :=
  Pop3.begin conf poll path only cfg.uidl cfg.apop cfg.user cfg.pass disk

section
variable {cfg : Settings} {conf : Conf} {poll path : Bool} {only : FetchOnly}
  {disk : Option (List Char)} {l : Loop Env State FetchPop3Mail}

/-- In every run, what was said is the beginning of a dialogue. -/
theorem said_reach (h : Reach (step (fetcher conf) conf) anyStep
      (cfg.begin conf poll path only disk) l) : Said cfg l.data := by
  have hinv : (polite cfg conf).Holds l :=
    LoopInv.holds_reach_any ⟨⟨rfl, rfl, rfl, rfl⟩, .greeting, Speaks.nil, .inl rfl⟩ h
  exact hinv.dead

/-- Whatever the server sends and whenever it does, all that the fetcher has sent is a dialogue
of the protocol, with nothing in it that the account's settings do not allow. -/
theorem pop3_conversation (h : Reach (step (fetcher conf) conf) anyStep
      (cfg.begin conf poll path only disk) l) :
    ∃ φ, exec Phase.next .greeting (l.data.hist.sent.map Sent.cmd) = some φ ∧
      ∀ sent ∈ l.data.hist.sent, cfg.allows sent.cmd := by
  obtain ⟨φ, hφ⟩ := said_reach h
  exact ⟨φ, hφ.phase, fun sent hsent => hφ.allowed _ (List.mem_map_of_mem hsent)⟩

/-- The session is left. -/
def leaves : Cmd → Bool
  | .quit => true
  | _ => false

/-- A step uses up a secret that its phase still has, and leaving a session brings one. -/
theorem Phase.secrets_next {φ φ' : Phase} {cmd : Cmd} (h : φ.next cmd = some φ') :
    (if secret cmd then 1 else 0) + φ'.secrets ≤ φ.secrets + if leaves cmd then 1 else 0 := by
  cases φ with
  | listed n =>
    cases cmd with
    | retr n' =>
      obtain rfl : Phase.transaction = φ' := by
        rw [Phase.next] at h
        split_ifs at h
        exact Option.some.inj h
      rfl
    | _ => cases h
  | _ => cases cmd <;> cases h <;> simp [secret, leaves, secrets]

/-- The password is given away at most once in each session. -/
theorem password_once (h : Reach (step (fetcher conf) conf) anyStep
      (cfg.begin conf poll path only disk) l) :
    (l.data.hist.sent.map Sent.cmd).countP secret ≤
      1 + (l.data.hist.sent.map Sent.cmd).countP leaves := by
  obtain ⟨φ, hφ⟩ := said_reach h
  have hcount := countP_le (p := secret) (q := leaves) Phase.secrets
    (fun _ _ _ => Phase.secrets_next) hφ.phase
  exact Nat.le_trans (Nat.le_add_right _ _) hcount

end

/-! ## Logging in -/

/-- An account with a user and a password. -/
def sampleSettings : Settings where
  user := ['u']
  pass := ['p', 'w']
  apop := true
  uidl := true

/-- A server that knows no `APOP` has a mail. -/
def session : List (Act Input) :=
  [.pass, .pass, srv ['+', 'O', 'K'], .pass, srv ['+', 'O', 'K'], .pass, srv ['+', 'O', 'K'],
    .pass, srv ['+', 'O', 'K', ' ', '1', ' ', '9'], .pass]

/-- A login, and then the listing. -/
theorem session_runs :
    (exec (step (fetcher {}) {}) (sampleSettings.begin {} false false .all none)
      session).isSome = true := by
  decide

/-- The four commands of that session. -/
theorem pop3_conversation_session :
    ∃ l : Loop Env State FetchPop3Mail,
      l.data.hist.sent.map Sent.cmd = [.user ['u'], .pass ['p', 'w'], .stat, .uidl] ∧
        ∃ φ, exec Phase.next .greeting (l.data.hist.sent.map Sent.cmd) = some φ ∧
          ∀ sent ∈ l.data.hist.sent, sampleSettings.allows sent.cmd :=
  ⟨_, by decide +kernel, pop3_conversation (reach_get session_runs)⟩

/-- One of them has the password. -/
theorem password_once_session :
    ∃ l : Loop Env State FetchPop3Mail,
      l.data.hist.sent.map Sent.cmd = [.user ['u'], .pass ['p', 'w'], .stat, .uidl] ∧
        (l.data.hist.sent.map Sent.cmd).countP secret ≤
          1 + (l.data.hist.sent.map Sent.cmd).countP leaves :=
  ⟨_, by decide +kernel, password_once (reach_get session_runs)⟩

end Fdm.Pop3.Conversation
