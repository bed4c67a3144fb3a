import Fdm.Account.Commits
import Fdm.Pop3.Invariant

/-!
# What a POP3 fetch deletes

From the rules to the server: a `DELE` is sent for a mail that has been committed with the decision
to drop it, and for no other.
-/

namespace Fdm.Pop3

open Fetch Account Lib.Runs

variable {κ δ υ σ γ ρ : Type}

/-! ## The fetcher -/

/-- What is deleted, or will be, has been committed. -/
structure Deletes (e : Env) (log : List (Option ℕ × Mail FetchPop3Mail)) : Prop where
  dropq : ∀ aux ∈ e.data.dropq, Logged log .drop aux
  sent : ∀ x ∈ e.hist.sent, ∀ n, x.cmd = .dele n →
    ∃ aux, x.aux = some aux ∧ aux.idx = n ∧ Logged log .drop aux

/-- What a call of a state function does about deletions: it may send one command, and a `DELE` is
for a mail of the drop queue. -/
structure Sends (e e' : Env) : Prop where
  dropq : e'.data.dropq ⊆ e.data.dropq
  sent : e'.hist.sent = e.hist.sent ∨ ∃ x, e'.hist.sent = e.hist.sent ++ [x] ∧
    ∀ n, x.cmd = .dele n → ∃ aux ∈ e.data.dropq, x.aux = some aux ∧ aux.idx = n

/-- A step that only sends a DELE for a mail which waits keeps the account of what was deleted. -/
theorem Deletes.sends {e e' : Env} {log : List (Option ℕ × Mail FetchPop3Mail)}
    (h : Deletes e log) (hsends : Sends e e') : Deletes e' log where
  dropq aux haux := h.dropq aux (hsends.dropq haux)
  sent x hx n hn := by
    rcases hsends.sent with hsame | ⟨y, hsent, hdele⟩
    · rw [hsame] at hx
      exact h.sent x hx n hn
    · rw [hsent] at hx
      rcases List.mem_append.mp hx with hx | hx
      · exact h.sent x hx n hn
      · obtain rfl := List.mem_singleton.mp hx
        obtain ⟨aux, haux, hsome, hidx⟩ := hdele n hn
        exact ⟨aux, hsome, hidx, h.dropq aux haux⟩

/-- More mails may be logged. -/
theorem Deletes.mono {e : Env} {log log' : List (Option ℕ × Mail FetchPop3Mail)}
    (h : Deletes e log) (hsub : log ⊆ log') : Deletes e log' where
  dropq aux haux := (h.dropq aux haux).mono hsub
  sent x hx n hn := by
    obtain ⟨aux, hsome, hidx, hlogged⟩ := h.sent x hx n hn
    exact ⟨aux, hsome, hidx, hlogged.mono hsub⟩

section

variable {e e' : Env} {fctx : Ctx}

/-- Nothing is sent and nothing is put on the drop queue. -/
theorem Sends.quiet (hdropq : e'.data.dropq ⊆ e.data.dropq) (hsent : e'.hist.sent = e.hist.sent) :
    Sends e e' := ⟨hdropq, .inl hsent⟩

/-- A command is sent that is no DELE, or the one for the next mail of the drop queue. -/
theorem sends_putln {cmd : Cmd} {aux : Option FetchPop3Mail} {s : State}
    (hdropq : e'.data.dropq ⊆ e.data.dropq) (hsent : e'.hist.sent = e.hist.sent)
    (hcmd : ∀ n, cmd = .dele n → ∃ a ∈ e.data.dropq, aux = some a ∧ a.idx = n) :
    Sends e (putln cmd aux s fctx e').2.2 := by
  unfold putln
  split_ifs
  · exact .quiet hdropq hsent
  · refine ⟨hdropq, .inr ⟨⟨cmd, aux, e'.hist.listing⟩, ?_, hcmd⟩⟩
    show e'.hist.sent ++ _ = _
    rw [hsent]

/-- A line is read first. -/
theorem sends_getOkay {k : List Char → Env → Result}
    (hk : ∀ line rest, Sends e (k line { e with inbuf := rest }).2.2) :
    Sends e (getOkay fctx e k).2.2 := by
  refine getOkay_cases (P := fun r => Sends e r.2.2) ?_ ?_ ?_
  · exact .quiet (List.Subset.refl _) rfl
  · exact fun inbuf => .quiet (List.Subset.refl _) rfl
  · exact fun line stale rest _ _ => hk line rest

theorem sends_stateConnected : Sends e (stateConnected fctx e).2.2 := by
  apply sends_getOkay
  intro line rest
  dsimp only
  split
  · exact sends_putln (List.Subset.refl _) rfl nofun
  · exact sends_putln (List.Subset.refl _) rfl nofun

theorem sends_stateFirst : Sends e (stateFirst fctx e).2.2 := by
  apply sends_getOkay
  intro line rest
  dsimp only
  split
  · split_ifs
    · exact .quiet (List.Subset.refl _) rfl
    · exact sends_putln (List.Subset.refl _) rfl nofun
    · exact .quiet (List.Subset.refl _) rfl
    · exact sends_putln (List.Subset.refl _) rfl nofun
  · exact .quiet (List.Subset.refl _) rfl

/-- The lines of the listing, by induction on what is in the buffer. -/
theorem sends_cache2Loop (inbuf : List Received) (hdropq : e'.data.dropq ⊆ e.data.dropq)
    (hsent : e'.hist.sent = e.hist.sent) : Sends e (cache2Loop fctx inbuf e').2.2 := by
  induction inbuf generalizing e' with
  | nil =>
    unfold cache2Loop
    split_ifs
    · exact .quiet hdropq hsent
    · exact .quiet hdropq hsent
  | cons r rest ih =>
    unfold cache2Loop
    split_ifs
    · exact .quiet hdropq hsent
    · cases r with
      | broken => exact .quiet hdropq hsent
      | line s stale =>
        dsimp only
        split
        · split_ifs
          · exact .quiet hdropq hsent
          · split
            · exact .quiet hdropq hsent
            · split_ifs
              · exact .quiet hdropq hsent
              · apply ih
                · exact hdropq
                · exact hsent
        · exact .quiet hdropq hsent

theorem sends_stateCache3 : Sends e (stateCache3 fctx e).2.2 := by
  refine getln_cases (P := fun r => Sends e r.2.2) ?_ ?_ ?_
  · exact .quiet (List.Subset.refl _) rfl
  · exact .quiet (List.Subset.refl _) rfl
  · intro line stale rest _
    dsimp only
    split_ifs
    · exact .quiet (List.Subset.refl _) rfl
    · unfold cache3Select
      split
      · exact .quiet (List.Subset.refl _) rfl
      · dsimp only
        split_ifs
        · exact sends_putln (List.Subset.refl _) rfl nofun
        · exact .quiet (List.Subset.refl _) rfl
    · exact .quiet (List.Subset.refl _) rfl

/-- A DELE is sent here only. -/
theorem sends_stateNext : Sends e (stateNext fctx e).2.2 := by
  unfold stateNext
  split
  · next aux rest hdropq =>
    refine sends_putln (List.Subset.refl _) rfl ?_
    intro n hn
    obtain rfl : aux.idx = n := by simpa using hn
    exact ⟨aux, by simp [hdropq], rfl, rfl⟩
  · split
    · split_ifs
      · exact .quiet (List.Subset.refl _) rfl
      · exact sends_putln (List.Subset.refl _) rfl nofun
    · split_ifs
      · exact sends_putln (List.Subset.refl _) rfl nofun
      · exact .quiet (List.Subset.refl _) rfl
      · exact sends_putln (List.Subset.refl _) rfl nofun

/-- `pop3_save` writes a file. -/
theorem save_sends {e₀ : Env} (h : save e = some e') (hdropq : e.data.dropq ⊆ e₀.data.dropq)
    (hsent : e.hist.sent = e₀.hist.sent) : Sends e₀ e' := by
  unfold save at h
  split_ifs at h
  · obtain rfl := Option.some.inj h
    exact .quiet hdropq hsent
  · obtain rfl := Option.some.inj h
    exact .quiet hdropq hsent

theorem sends_stateDelete : Sends e (stateDelete fctx e).2.2 := by
  apply sends_getOkay
  intro line rest
  dsimp only
  split
  · exact .quiet (List.Subset.refl _) rfl
  · next aux dropq hdropq =>
    have hsub : dropq ⊆ e.data.dropq := by
      rw [hdropq]
      exact List.subset_cons_self _ _
    split_ifs
    · split
      · exact .quiet hsub rfl
      · next e' hsave =>
        refine save_sends hsave ?_ rfl
        exact hsub
    · exact .quiet hsub rfl

theorem sends_stateList : Sends e (stateList fctx e).2.2 := by
  apply sends_getOkay
  intro line rest
  dsimp only
  split
  · split_ifs
    · exact .quiet (List.Subset.refl _) rfl
    · exact sends_putln (List.Subset.refl _) rfl nofun
  · exact .quiet (List.Subset.refl _) rfl
  · exact .quiet (List.Subset.refl _) rfl

/-- The lines of a mail, by induction on what is in the buffer. -/
theorem sends_lineLoop {conf : Conf} (inbuf : List Received) (m : Mail FetchPop3Mail)
    (hdropq : e'.data.dropq ⊆ e.data.dropq) (hsent : e'.hist.sent = e.hist.sent) :
    Sends e (lineLoop conf fctx inbuf m e').2.2 := by
  induction inbuf generalizing m e' with
  | nil => exact .quiet hdropq hsent
  | cons r rest ih =>
    cases r with
    | broken => exact .quiet hdropq hsent
    | line s stale =>
      rw [lineLoop]
      split_ifs
      · split
        · exact .quiet hdropq hsent
        · exact .quiet hdropq hsent
      · exact ih m hdropq hsent
      · exact .quiet hdropq hsent
      · apply ih
        · exact hdropq
        · exact hsent

/-- A state function only sends a DELE for a mail that waits. -/
theorem sends_state (conf : Conf) (fctx : Ctx) (e : Env) : Sends e (state conf fctx e).2.2 := by
  unfold state
  cases fctx.state with
  | init => exact .quiet (List.nil_subset _) rfl
  | connect =>
    dsimp only [stateConnect]
    split_ifs
    · exact .quiet (List.Subset.refl _) rfl
    · exact .quiet (List.Subset.refl _) rfl
  | connected => exact sends_stateConnected
  | user => exact sends_getOkay fun _ _ => sends_putln (List.Subset.refl _) rfl nofun
  | stat => exact sends_getOkay fun _ _ => sends_putln (List.Subset.refl _) rfl nofun
  | first => exact sends_stateFirst
  | cache1 => exact sends_getOkay fun _ _ => .quiet (List.Subset.refl _) rfl
  | cache2 => exact sends_cache2Loop e.inbuf (List.Subset.refl _) rfl
  | cache3 => exact sends_stateCache3
  | next => exact sends_stateNext
  | delete => exact sends_stateDelete
  | reconnect => exact sends_getOkay fun _ _ => .quiet (List.Subset.refl _) rfl
  | list => exact sends_stateList
  | retr =>
    apply sends_getOkay
    intro line rest
    dsimp only
    split_ifs
    · exact .quiet (List.Subset.refl _) rfl
    · exact .quiet (List.Subset.refl _) rfl
  | line => exact sends_lineLoop e.inbuf fctx.mail (List.Subset.refl _) rfl
  | quit => exact sends_getOkay fun _ _ => .quiet (List.nil_subset _) rfl

end

/-! ## The commits -/

/-- What waits for its `DELE` has been committed. -/
theorem deletes_commit {e : Env} {log : List (Option ℕ × Mail FetchPop3Mail)} (h : Deletes e log)
    (conf : Conf) (n : Option ℕ) (m : Mail FetchPop3Mail) :
    Committed (fetcher conf) (fun e => Deletes e (log ++ [(n, m)])) (fun e => Deletes e log)
      (commit m e) := by
  have hmore : Deletes e (log ++ [(n, m)]) := h.mono (List.subset_append_left _ _)
  unfold commit
  split
  · exact h
  · next aux haux =>
    split
    · next hdrop =>
      -- the mail is put on the drop queue
      constructor
      · intro a ha
        rcases List.mem_append.mp ha with ha | ha
        · exact hmore.dropq a ha
        · obtain rfl := List.mem_singleton.mp ha
          exact .last log n hdrop haux
      · exact hmore.sent
    · dsimp only
      split_ifs
      · split
        · exact ⟨h.dropq, h.sent⟩
        · next e' hsave =>
          exact hmore.sends (save_sends hsave (List.Subset.refl _) rfl)
      · exact ⟨hmore.dropq, hmore.sent⟩

/-- The fetcher keeps the account of what was deleted. -/
theorem deletes_kept (conf : Conf) : KeptBy (fetcher conf) Deletes where
  state fctx e _ h := h.sends (sends_state conf fctx e)
  commit n m _ _ h := deletes_commit h conf n m
  abort _ _ h := ⟨nofun, h.sent⟩
  auxfree _ _ _ h := h
  input i _ _ h := by cases i <;> exact ⟨h.dropq, h.sent⟩

/-- Where an account that is fetched by POP3 starts. -/
def pop3Start (set : Settings κ δ σ FetchPop3Mail) (poll path : Bool) (only : FetchOnly)
    (uidl apop : Bool) (user pass : List Char) (disk : Option (List Char)) (world : γ) :
    Whole κ δ υ σ γ ρ Env State FetchPop3Mail :=
  wholeStart (fetcher set.fetch) { poll := poll }
    (begin set.fetch poll path only uidl apop user pass disk).data world

/-- In every run of an account that is fetched by POP3, whatever the server says, each `DELE` that
is sent is for a mail that the rules, evaluated to their end on that mail, have decided to drop; or
for one that was too big, where `delete-oversized` is set. -/
theorem deletions_ruled (set : Settings κ δ σ FetchPop3Mail) (env : Rules.Env κ δ υ σ γ ρ)
    (poll path : Bool) (only : FetchOnly) (uidl apop : Bool) (user pass : List Char)
    (disk : Option (List Char)) (world : γ) {c : Whole κ δ υ σ γ ρ Env State FetchPop3Mail}
    (h : Reach (wholeStep (fetcher set.fetch) set env) (fun c _ => c.counts)
      (pop3Start set poll path only uidl apop user pass disk world) c) :
    ∀ x ∈ c.side.data.hist.sent, ∀ n, x.cmd = .dele n →
      ∃ m : Mail FetchPop3Mail, m.decision = .drop ∧ m.auxdata = x.aux ∧
        (∃ aux, x.aux = some aux ∧ aux.idx = n) ∧
        ((∃ k, Ruled env set c k m) ∨ set.fetch.maxSize < m.size ∧ set.fetch.delBig = true) := by
  have hdeletes : Deletes c.side.data c.side.log := by
    refine kept_run (deletes_kept set.fetch) ?_ h
    exact ⟨nofun, nofun⟩
  intro x hx n hn
  obtain ⟨aux, haux, hidx, hlogged⟩ := hdeletes.sent x hx n hn
  obtain ⟨m, hdrop, hsome, hruled⟩ := hlogged.ruled (fetcher set.fetch) set env _ _ world h
  exact ⟨m, hdrop, hsome.trans haux.symm, ⟨aux, haux, hidx⟩, hruled.imp_right And.right⟩

/-- Every mail is dropped. -/
def dropPop3 : Settings Unit Unit Unit FetchPop3Mail where
  fetch := {}
  rules := { rules := [], implAct := some .drop }
  timeout := 900
  tags _ := ()
  fillIn m := m

/-- The server has one message. -/
def oneMessage : List (List Char) :=
  [['+', 'O', 'K'], ['+', 'O', 'K'], ['+', 'O', 'K'], ['+', 'O', 'K', ' ', '1', ' ', '9'],
    ['+', 'O', 'K', ' ', '1', ' ', '9'], ['+', 'O', 'K'], ['x'], ['.']]

/-- The answers of the server come once it has been connected to. -/
def deleteOne : Option (Whole Unit Unit Unit Unit Unit Unit Env State FetchPop3Mail) :=
  exec (guarded (wholeStep (fetcher dropPop3.fetch) dropPop3 Rules.idleEnv) fun c _ => c.counts)
    (pop3Start dropPop3 false true .all false false ['u'] ['p'] none ())
    (List.replicate 9 (.inr {}) ++ oneMessage.map (fun s => .inl (.line s [])) ++
      List.replicate 42 (.inr {}))

/-- A mail is fetched, dropped by the rules and deleted. -/
theorem deletions_ruled_deleteOne :
    deleteOne.map (fun c => c.side.data.hist.sent.map Sent.cmd) =
      some [.user ['u'], .pass ['p'], .stat, .list 1, .retr 1, .dele 1] ∧
    ∀ c, deleteOne = some c → ∀ x ∈ c.side.data.hist.sent, ∀ n, x.cmd = .dele n →
      ∃ m : Mail FetchPop3Mail, m.decision = .drop ∧ m.auxdata = x.aux ∧
        (∃ aux, x.aux = some aux ∧ aux.idx = n) ∧
        ((∃ k, Ruled Rules.idleEnv dropPop3 c k m) ∨
          dropPop3.fetch.maxSize < m.size ∧ dropPop3.fetch.delBig = true) :=
  ⟨by decide +kernel, fun _ hc => deletions_ruled dropPop3 Rules.idleEnv false true .all false false
    ['u'] ['p'] none () (reach_of_execGuarded (fun _ _ => of_decide_eq_true) hc)⟩

end Fdm.Pop3
