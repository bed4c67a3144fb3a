import Fdm.Account.Commits
import Fdm.Imap.Invariant

/-!
# What an IMAP fetch deletes and marks

From the rules to the server: `STORE +FLAGS \Deleted` is sent for the UID of a mail that has been
committed with the decision to drop it, and `STORE +FLAGS \Seen` for one that is to be kept.
-/

namespace Fdm.Imap

open Fetch Account Lib.Runs

variable {κ δ υ σ γ ρ : Type}

/-! ## The fetcher -/

/-- What a command says about a mail. -/
def Cmd.stores : Cmd → Option (Decision × ℕ)
  | storeDeleted uid => some (.drop, uid)
  | storeSeen uid => some (.keep, uid)
  | _ => none

/-- The mails for which a command waits to be sent. -/
def waiting (e : Env) : List (Decision × ℕ) :=
  e.data.dropped.map (fun uid => (.drop, uid)) ++ e.data.kept.map (fun uid => (.keep, uid))

/-- What is stored, or will be, has been committed. -/
structure Stores (e : Env) (log : List (Option ℕ × Mail FetchImapMail)) : Prop where
  waiting : ∀ x ∈ waiting e, Logged log x.1 ⟨x.2⟩
  sent : ∀ cmd ∈ e.hist.sent, ∀ x, cmd.stores = some x → Logged log x.1 ⟨x.2⟩

/-- What a call of a state function sends: at most one command, and a `STORE` is for a mail that
has been waiting for it. -/
structure Marks (e e' : Env) : Prop where
  waiting : waiting e' ⊆ waiting e
  sent : e'.hist.sent = e.hist.sent ∨ ∃ cmd, e'.hist.sent = e.hist.sent ++ [cmd] ∧
    ∀ x, cmd.stores = some x → x ∈ Imap.waiting e

/-- A step that only marks mails which wait keeps the account of what was stored. -/
theorem Stores.marks {e e' : Env} {log : List (Option ℕ × Mail FetchImapMail)} (h : Stores e log)
    (hmarks : Marks e e') : Stores e' log where
  waiting x hx := h.waiting x (hmarks.waiting hx)
  sent cmd hcmd x hx := by
    rcases hmarks.sent with hsame | ⟨cmd', hsent, hstores⟩
    · rw [hsame] at hcmd
      exact h.sent cmd hcmd x hx
    · rw [hsent] at hcmd
      rcases List.mem_append.mp hcmd with hcmd | hcmd
      · exact h.sent cmd hcmd x hx
      · obtain rfl := List.mem_singleton.mp hcmd
        exact h.waiting x (hstores x hx)

/-- More mails may be logged. -/
theorem Stores.mono {e : Env} {log log' : List (Option ℕ × Mail FetchImapMail)}
    (h : Stores e log) (hsub : log ⊆ log') : Stores e log' where
  waiting x hx := (h.waiting x hx).mono hsub
  sent cmd hcmd x hx := (h.sent cmd hcmd x hx).mono hsub

section

variable {e e' : Env} {fctx : Ctx}

/-- Nothing is sent, and the same mails wait. -/
theorem Marks.quiet (hdropped : e'.data.dropped = e.data.dropped)
    (hkept : e'.data.kept = e.data.kept) (hsent : e'.hist.sent = e.hist.sent) : Marks e e' := by
  refine ⟨?_, .inl hsent⟩
  rw [Imap.waiting, hdropped, hkept]
  exact List.Subset.refl _

/-- The lists are cleared. -/
theorem Marks.cleared (hdropped : e'.data.dropped = []) (hkept : e'.data.kept = [])
    (hsent : e'.hist.sent = e.hist.sent) : Marks e e' := by
  refine ⟨?_, .inl hsent⟩
  rw [Imap.waiting, hdropped, hkept]
  exact List.nil_subset _

/-- A command is sent that marks no mail, or one that waits. -/
theorem marks_putln {cmd : Cmd} {s : State} (hmarks : waiting e' ⊆ waiting e)
    (hsent : e'.hist.sent = e.hist.sent) (hcmd : ∀ x, cmd.stores = some x → x ∈ waiting e) :
    Marks e (putln cmd s fctx e').2.2 := by
  unfold putln
  split_ifs
  · exact ⟨hmarks, .inl hsent⟩
  · refine ⟨hmarks, .inr ⟨cmd, ?_, hcmd⟩⟩
    show e'.hist.sent ++ _ = _
    rw [hsent]

/-- A command that is not a `STORE`. -/
theorem marks_plain {cmd : Cmd} {s : State} (hdropped : e'.data.dropped = e.data.dropped)
    (hkept : e'.data.kept = e.data.kept) (hsent : e'.hist.sent = e.hist.sent)
    (hcmd : cmd.stores = none) : Marks e (putln cmd s fctx e').2.2 := by
  refine marks_putln (Marks.quiet hdropped hkept hsent).waiting hsent ?_
  intro x hx
  rw [hcmd] at hx
  cases hx

/-- Reading a line marks nothing. -/
theorem marks_imapGetln {type : LineType} {k : List Char → Env → Result}
    (hk : ∀ line rest, Marks e (k line { e with inbuf := rest }).2.2) :
    Marks e (imapGetln type fctx e k).2.2 := by
  refine imapGetln_cases (P := fun r => Marks e r.2.2) ?_ ?_ hk
  · exact .quiet rfl rfl rfl
  · exact fun rest => .quiet rfl rfl rfl

theorem marks_getOkay {k : Env → Result}
    (hk : ∀ rest, Marks e (k { e with inbuf := rest }).2.2) :
    Marks e (getOkay fctx e k).2.2 := by
  apply marks_imapGetln
  intro line rest
  split_ifs
  · exact hk rest
  · exact .quiet rfl rfl rfl

theorem marks_stateConnected : Marks e (stateConnected fctx e).2.2 := by
  apply marks_imapGetln
  intro line rest
  dsimp only
  split_ifs
  · exact .quiet rfl rfl rfl
  · exact .quiet rfl rfl rfl
  · exact marks_plain rfl rfl rfl rfl

theorem marks_stateCapability2 : Marks e (stateCapability2 fctx e).2.2 := by
  apply marks_getOkay
  intro rest
  dsimp only
  split_ifs
  · exact marks_plain rfl rfl rfl rfl
  · split
    · exact .quiet rfl rfl rfl
    · exact marks_plain rfl rfl rfl rfl
  · exact .quiet rfl rfl rfl

theorem marks_stateCramMd5Auth (pton : List Char → Option (List Char)) :
    Marks e (stateCramMd5Auth pton fctx e).2.2 := by
  apply marks_imapGetln
  intro line rest
  dsimp only
  split_ifs
  · exact .quiet rfl rfl rfl
  · split
    · exact .quiet rfl rfl rfl
    · exact marks_plain rfl rfl rfl rfl

theorem marks_stateLogin : Marks e (stateLogin fctx e).2.2 := by
  apply marks_imapGetln
  intro line rest
  dsimp only
  split
  · exact marks_plain rfl rfl rfl rfl
  · exact .quiet rfl rfl rfl

theorem marks_stateUser : Marks e (stateUser fctx e).2.2 := by
  apply marks_imapGetln
  intro line rest
  dsimp only
  split
  · exact .quiet rfl rfl rfl
  · exact marks_plain rfl rfl rfl rfl

theorem marks_stateSelect1 : Marks e (stateSelect1 fctx e).2.2 := by
  unfold stateSelect1
  split
  · exact .quiet rfl rfl rfl
  · exact marks_plain rfl rfl rfl rfl

theorem marks_stateSelect2 : Marks e (stateSelect2 fctx e).2.2 := by
  apply marks_imapGetln
  intro line rest
  dsimp only
  split
  · exact .quiet rfl rfl rfl
  · exact marks_plain rfl rfl rfl rfl

/-- The answer to SELECT, by induction on what is in the buffer. -/
theorem marks_select3Loop (inbuf : List Received) : Marks e (select3Loop fctx inbuf e).2.2 := by
  induction inbuf with
  | nil => exact .quiet rfl rfl rfl
  | cons r rest ih =>
    cases r with
    | broken => exact .quiet rfl rfl rfl
    | line s stale =>
      unfold select3Loop
      split
      · split
        · exact .quiet rfl rfl rfl
        · exact ih
      · exact .quiet rfl rfl rfl

theorem marks_stateSearch2 : Marks e (stateSearch2 fctx e).2.2 := by
  apply marks_imapGetln
  intro line rest
  dsimp only
  split_ifs
  · exact .quiet rfl rfl rfl
  · split
    · exact .quiet rfl rfl rfl
    · exact .quiet rfl rfl rfl

/-- The first of the mails that wait is stored. -/
theorem marks_stateNext : Marks e (stateNext fctx e).2.2 := by
  unfold stateNext
  -- mails to be dropped go first, then those to be kept; behind them nothing waits
  split
  · next uid dropped hdropped =>
    refine marks_putln ?_ rfl ?_
    · simp [waiting, hdropped]
    · intro x hx
      obtain rfl := Option.some.inj hx
      simp [waiting, hdropped]
  · next hdropped =>
    split
    · next uid kept hkept =>
      refine marks_putln ?_ rfl ?_
      · simp [waiting, hdropped, hkept]
      · intro x hx
        obtain rfl := Option.some.inj hx
        simp [waiting, hkept]
    · split_ifs
      · exact marks_plain rfl rfl rfl rfl
      · exact .quiet rfl rfl rfl
      · split
        · exact .quiet rfl rfl rfl
        · exact marks_plain rfl rfl rfl rfl
      · split
        · exact marks_plain rfl rfl rfl rfl
        · exact marks_plain rfl rfl rfl rfl

theorem marks_stateBody (conf : Conf) : Marks e (stateBody conf fctx e).2.2 := by
  apply marks_imapGetln
  intro line rest
  dsimp only
  split
  · split
    · exact .quiet rfl rfl rfl
    · split_ifs
      · exact .quiet rfl rfl rfl
      · exact .quiet rfl rfl rfl
    · exact .quiet rfl rfl rfl
  · exact .quiet rfl rfl rfl

/-- A mail that is handed out has not been marked. -/
theorem marks_lastLine (s : List Char) (m : Mail FetchImapMail)
    (hdropped : e'.data.dropped = e.data.dropped) (hkept : e'.data.kept = e.data.kept)
    (hsent : e'.hist.sent = e.hist.sent) : Marks e (lastLine fctx s m e').2.2 := by
  unfold lastLine
  dsimp only
  split
  · exact .quiet hdropped hkept hsent
  · split_ifs
    · exact .quiet hdropped hkept hsent
    · exact .quiet hdropped hkept hsent
    · exact .quiet hdropped hkept hsent
    · exact .quiet hdropped hkept hsent

/-- The lines of a mail, by induction on what is in the buffer. -/
theorem marks_lineLoop (inbuf : List Received) (m : Mail FetchImapMail)
    (hdropped : e'.data.dropped = e.data.dropped) (hkept : e'.data.kept = e.data.kept)
    (hsent : e'.hist.sent = e.hist.sent) : Marks e (lineLoop fctx inbuf m e').2.2 := by
  induction inbuf generalizing m e' with
  | nil => exact .quiet hdropped hkept hsent
  | cons r rest ih =>
    cases r with
    | broken => exact .quiet hdropped hkept hsent
    | line s stale =>
      unfold lineLoop
      split_ifs
      · exact ih m hdropped hkept hsent
      · apply marks_lastLine
        · exact hdropped
        · exact hkept
        · exact hsent
      · exact .quiet hdropped hkept hsent
      · apply ih
        · exact hdropped
        · exact hkept
        · exact hsent

theorem marks_stateClose : Marks e (stateClose fctx e).2.2 := by
  apply marks_getOkay
  intro rest
  dsimp only
  split_ifs
  · exact .quiet rfl rfl rfl
  · exact marks_plain rfl rfl rfl rfl

/-- A state function only marks mails that wait. -/
theorem marks_state (conf : Conf) (pton : List Char → Option (List Char)) (fctx : Ctx) (e : Env) :
    Marks e (state conf pton fctx e).2.2 := by
  unfold state
  cases fctx.state with
  | init => exact .cleared rfl rfl rfl
  | connect =>
    dsimp only [stateConnect]
    split_ifs
    · exact .quiet rfl rfl rfl
    · exact .quiet rfl rfl rfl
  | connected => exact marks_stateConnected
  | capability1 =>
    apply marks_imapGetln
    intro line rest
    dsimp only
    split_ifs
    · exact .quiet rfl rfl rfl
    · exact .quiet rfl rfl rfl
  | capability2 => exact marks_stateCapability2
  | cramMd5Auth => exact marks_stateCramMd5Auth pton
  | login => exact marks_stateLogin
  | user => exact marks_stateUser
  | pass => exact marks_getOkay fun _ => .quiet rfl rfl rfl
  | select1 => exact marks_stateSelect1
  | select2 => exact marks_stateSelect2
  | select3 => exact marks_select3Loop e.inbuf
  | select4 | search3 =>
    apply marks_getOkay
    intro rest
    dsimp only
    split_ifs
    · exact marks_plain rfl rfl rfl rfl
    · exact .quiet rfl rfl rfl
  | search1 => exact marks_plain rfl rfl rfl rfl
  | search2 => exact marks_stateSearch2
  | next => exact marks_stateNext
  | body => exact marks_stateBody conf
  | line => exact marks_lineLoop e.inbuf fctx.mail rfl rfl rfl
  | mail => exact marks_getOkay fun _ => .quiet rfl rfl rfl
  | commit => exact marks_getOkay fun _ => .quiet rfl rfl rfl
  | expunge => exact marks_getOkay fun _ => .quiet rfl rfl rfl
  | close => exact marks_stateClose
  | quit => exact marks_getOkay fun _ => .cleared rfl rfl rfl

end

/-! ## The commits -/

/-- What waits to be stored has been committed with that decision. -/
theorem stores_commit {e : Env} {log : List (Option ℕ × Mail FetchImapMail)} (h : Stores e log)
    (conf : Conf) (pton : List Char → Option (List Char)) (n : Option ℕ) (m : Mail FetchImapMail) :
    Committed (fetcher conf pton) (fun e => Stores e (log ++ [(n, m)])) (fun e => Stores e log)
      (imapCommit m e) := by
  have hmore : Stores e (log ++ [(n, m)]) := h.mono (List.subset_append_left _ _)
  unfold imapCommit
  split
  · exact h
  · next aux haux =>
    -- the UID is put on the list of its decision
    split
    · next hdrop =>
      refine ⟨?_, hmore.sent⟩
      intro x hx
      simp only [waiting, fetcher, List.map_append, List.map_cons, List.map_nil, List.mem_append,
        List.mem_singleton] at hx
      rcases hx with (hx | rfl) | hx
      · exact hmore.waiting x (List.mem_append_left _ hx)
      · exact .last log n hdrop haux
      · exact hmore.waiting x (List.mem_append_right _ hx)
    · next hkeep =>
      refine ⟨?_, hmore.sent⟩
      intro x hx
      simp only [waiting, fetcher, List.map_append, List.map_cons, List.map_nil, List.mem_append,
        List.mem_singleton] at hx
      rcases hx with hx | hx | rfl
      · exact hmore.waiting x (List.mem_append_left _ hx)
      · exact hmore.waiting x (List.mem_append_right _ hx)
      · exact .last log n hkeep haux

/-- The fetcher keeps the account of what was stored. -/
theorem stores_kept (conf : Conf) (pton : List Char → Option (List Char)) :
    KeptBy (fetcher conf pton) Stores where
  state fctx e _ h := h.marks (marks_state conf pton fctx e)
  commit n m _ _ h := stores_commit h conf pton n m
  abort _ _ h := h.marks (.cleared rfl rfl rfl)
  auxfree _ _ _ h := h
  input i _ _ h := by cases i <;> exact h.marks (.quiet rfl rfl rfl)

/-- Where an account that is fetched by IMAP starts. -/
def imapStart (set : Account.Settings κ δ σ FetchImapMail) (pton : List Char → Option (List Char))
    (poll : Bool) (only : FetchOnly) (user pass : Option (List Char)) (nocrammd5 nologin : Bool)
    (folders : List (List Char)) (world : γ) : Whole κ δ υ σ γ ρ Env State FetchImapMail :=
  wholeStart (fetcher set.fetch pton) { poll := poll }
    (begin set.fetch pton poll only user pass nocrammd5 nologin folders).data world

/-- In every run of an account that is fetched by IMAP, whatever the server says, each `STORE` that
is sent has the UID of a mail on which the rules, evaluated to their end, have decided what the
`STORE` says: to drop it, or to keep it. Only one that was too big is marked as deleted without
them, where `delete-oversized` is set. -/
theorem marks_ruled (set : Account.Settings κ δ σ FetchImapMail) (env : Rules.Env κ δ υ σ γ ρ)
    (pton : List Char → Option (List Char)) (poll : Bool) (only : FetchOnly)
    (user pass : Option (List Char)) (nocrammd5 nologin : Bool) (folders : List (List Char))
    (world : γ) {c : Whole κ δ υ σ γ ρ Env State FetchImapMail}
    (h : Reach (wholeStep (fetcher set.fetch pton) set env) (fun c _ => c.counts)
      (imapStart set pton poll only user pass nocrammd5 nologin folders world) c) :
    ∀ cmd ∈ c.side.data.hist.sent, ∀ dec uid, cmd.stores = some (dec, uid) →
      ∃ m : Mail FetchImapMail, m.decision = dec ∧ m.auxdata = some ⟨uid⟩ ∧
        ((∃ k, Ruled env set c k m) ∨
          dec = .drop ∧ set.fetch.maxSize < m.size ∧ set.fetch.delBig = true) := by
  have hstores : Stores c.side.data c.side.log := by
    refine kept_run (stores_kept set.fetch pton) ?_ h
    exact ⟨nofun, nofun⟩
  intro cmd hcmd dec uid hx
  exact (hstores.sent cmd hcmd _ hx).ruled (fetcher set.fetch pton) set env _ _ world h

/-- Every mail is dropped. -/
def dropImap : Account.Settings Unit Unit Unit FetchImapMail where
  fetch := {}
  rules := { rules := [], implAct := some .drop }
  timeout := 900
  tags _ := ()
  fillIn m := m

/-- The server asks for no password, and has one message in the folder. -/
def oneFolder : List (List Char) :=
  ["* PREAUTH", "+", "* 1 EXISTS", "1 OK", "* SEARCH 5", "2 OK", "* 1 FETCH (BODY[] {3}", "x", ")",
    "3 OK"].map String.toList

/-- The answers of the server come once it has been connected to. -/
def markOne : Option (Whole Unit Unit Unit Unit Unit Unit Env State FetchImapMail) :=
  exec (guarded (wholeStep (fetcher dropImap.fetch fun _ => none) dropImap Rules.idleEnv)
      fun c _ => c.counts)
    (imapStart dropImap (fun _ => none) false .all none none false false [['a']] ())
    (List.replicate 9 (.inr {}) ++ oneFolder.map (fun s => .inl (.line s [])) ++
      List.replicate 60 (.inr {}))

/-- A mail is fetched, dropped by the rules and marked. -/
theorem marks_ruled_markOne :
    markOne.map (fun c => c.side.data.hist.sent) =
      some [.select 1, .folder ['a'], .search .all, .fetch 5, .storeDeleted 5] ∧
    ∀ c, markOne = some c → ∀ cmd ∈ c.side.data.hist.sent, ∀ dec uid, cmd.stores = some (dec, uid) →
      ∃ m : Mail FetchImapMail, m.decision = dec ∧ m.auxdata = some ⟨uid⟩ ∧
        ((∃ k, Ruled Rules.idleEnv dropImap c k m) ∨
          dec = .drop ∧ dropImap.fetch.maxSize < m.size ∧ dropImap.fetch.delBig = true) :=
  ⟨by decide +kernel, fun _ hc => marks_ruled dropImap Rules.idleEnv (fun _ => none) false .all none
    none false false [['a']] () (reach_of_execGuarded (fun _ _ => of_decide_eq_true) hc)⟩

end Fdm.Imap
