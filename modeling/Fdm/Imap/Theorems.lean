import Fdm.Imap.Invariant

/-!
# When an IMAP folder is left

* `closes_when_stored`: a folder is closed when all its mails are stored, and not before,
  in the runs that meet `committedGuard`;
* `closed_too_early`: the second folder of a run that does not;
* `not_inFolder_of_committed`: no weaker condition will do.
-/

namespace Fdm.Imap

open Fdm.Fetch Lib.Scanf

/-- The `STORE` of each mail selected in the current folder is acknowledged. -/
def AllStored (e : Env) : Prop := e.hist.stored.Perm e.hist.selected

instance (e : Env) : Decidable (AllStored e) :=
  inferInstanceAs (Decidable (e.hist.stored.Perm e.hist.selected))

/-- In the idle state, a folder is closed exactly when it is done: the counters show it as
soon as nothing is wanted any more, `CLOSE` is not sent before, and it is sent on the next
call, behind an `EXPUNGE` if a purge is due. -/
structure ClosesWhenStored (conf : Conf) (pton : List Char → Option (List Char))
    (l : Loop Env State FetchImapMail) : Prop where
  guard : l.data.data.wanted = [] →
    (l.data.data.committed = l.data.data.total ↔ AllStored l.data)
  only : (l.pass (fetcher conf pton) conf).data.hist.sent = l.data.hist.sent ++ [.close] →
    AllStored l.data
  soon : l.calls conf = true → l.data.fault = false → AllStored l.data →
    (l.purge conf).fctx.flags.purge = false →
    (l.pass (fetcher conf pton) conf).data.hist.sent = l.data.hist.sent ++ [.close]
  purged : l.calls conf = true → l.data.fault = false → AllStored l.data →
    (l.purge conf).fctx.flags.purge = true →
    (l.pass (fetcher conf pton) conf).data.hist.sent = l.data.hist.sent ++ [.expunge] ∧
      (l.pass (fetcher conf pton) conf).fctx.flags.purge = false

variable {conf : Conf} {pton : List Char → Option (List Char)} {poll : Bool}
  {only : FetchOnly} {user pass : Option (List Char)} {nocrammd5 nologin : Bool}
  {folders : List (List Char)} {l : Loop Env State FetchImapMail}

/-! ## What the idle state sends -/

/-- Sending a tagged command. -/
theorem sent_putTagged {cmd : Cmd} {s : State} {c : Ctx} {e : Env} :
    (putTagged cmd s c e).2.2.hist.sent =
      if e.fault then e.hist.sent else e.hist.sent ++ [cmd] := by
  unfold putTagged putln
  cases e.fault <;> rfl

/-- `CLOSE` is sent from the idle state when the counters agree. -/
theorem committed_eq_total_of_sent_close {c : Ctx} {e : Env}
    (h : (stateNext c e).2.2.hist.sent = e.hist.sent ++ [.close]) :
    e.data.committed = e.data.total := by
  have hother : ∀ {cmd : Cmd} {s : State} {c : Ctx} {e : Env}, cmd ≠ .close →
      (putTagged cmd s c e).2.2.hist.sent ≠ e.hist.sent ++ [.close] := by
    intro cmd s c e hcmd heq
    rw [sent_putTagged] at heq
    split_ifs at heq
    · simp at heq
    · simp [hcmd] at heq
  have hnone : e.hist.sent ≠ e.hist.sent ++ [.close] := by simp
  unfold stateNext at h
  split at h
  · exact absurd h (hother nofun)
  · split at h
    · exact absurd h (hother nofun)
    · by_cases hpurge : c.flags.purge
      · rw [if_pos hpurge] at h
        split_ifs at h
        · exact absurd h (hother nofun)
        · exact absurd h hnone
      · rw [if_neg hpurge] at h
        split at h
        · split_ifs at h with hclose
          · exact absurd h hnone
          · exact not_not.mp hclose
        · exact absurd h (hother nofun)

/-- The call of the idle state when nothing is left to do. -/
theorem stateNext_done {c : Ctx} {e : Env} (hwanted : e.data.wanted = [])
    (hdropped : e.data.dropped = []) (hkept : e.data.kept = [])
    (hdone : e.data.committed = e.data.total) (hempty : c.flags.empty = true) :
    stateNext c e =
      if c.flags.purge then
        putTagged .expunge .expunge { c with flags := { c.flags with purge := false } } e
      else putTagged .close .close c e := by
  simp [stateNext, hwanted, hdropped, hkept, hdone, hempty]

/-- The idle state fetches no mail and does not end the fetch. -/
theorem stateNext_code (c : Ctx) (e : Env) :
    (stateNext c e).1 = .block ∨ (stateNext c e).1 = .error := by
  have hput : ∀ (cmd : Cmd) (s : State) (c : Ctx) (e : Env),
      (putTagged cmd s c e).1 = .block ∨ (putTagged cmd s c e).1 = .error := by
    intro cmd s c e
    unfold putTagged putln
    cases e.fault
    · exact Or.inl rfl
    · exact Or.inr rfl
  unfold stateNext
  split
  · exact hput ..
  · split
    · exact hput ..
    · by_cases hpurge : c.flags.purge
      · rw [if_pos hpurge]
        split_ifs
        · exact hput ..
        · exact Or.inl rfl
      · rw [if_neg hpurge]
        split
        · split_ifs
          · exact Or.inl rfl
          · exact hput ..
        · exact hput ..

/-- An abort sends nothing. -/
theorem hist_abort : (l.abort (fetcher conf pton)).data.hist = l.data.hist := by
  show (l.queue.foldl (fun d _ => d) (imapAbort l.data)).hist = l.data.hist
  generalize hd : imapAbort l.data = d
  have hhist : d.hist = l.data.hist := by rw [← hd]; rfl
  rw [← hhist]
  induction l.queue with
  | nil => rfl
  | cons m q ih => exact ih

variable (conf pton) in
/-- What a call of the idle state leaves in the loop. -/
theorem call_next (hnext : l.fctx.state = .next) :
    (l.call (fetcher conf pton) conf).data.hist = (stateNext l.fctx l.data).2.2.hist ∧
      (l.call (fetcher conf pton) conf).fctx.flags = (stateNext l.fctx l.data).2.1.flags := by
  have hstate : (fetcher conf pton).state l.fctx l.data = stateNext l.fctx l.data := by
    show state conf pton l.fctx l.data = _
    rw [state, hnext]
  unfold Loop.call
  rw [hstate]
  rcases hr : stateNext l.fctx l.data with ⟨code, c, e⟩
  have hcode := stateNext_code l.fctx l.data
  rw [hr] at hcode
  rcases hcode with hcode | hcode
  · obtain rfl : code = .block := hcode
    exact ⟨rfl, rfl⟩
  · obtain rfl : code = .error := hcode
    exact ⟨hist_abort, rfl⟩

variable (pton) in
/-- A pass in the idle state. -/
theorem pass_next (hcalls : l.calls conf = true) (hnext : l.fctx.state = .next) :
    ∃ c : Ctx, c.flags.purge = (l.purge conf).fctx.flags.purge ∧
      c.flags.empty = l.queue.isEmpty ∧
      (l.pass (fetcher conf pton) conf).data.hist = (stateNext c l.data).2.2.hist ∧
      (l.pass (fetcher conf pton) conf).fctx.flags = (stateNext c l.data).2.1.flags := by
  have ha := agree_prepare conf l
  have hpass : l.pass (fetcher conf pton) conf =
      ((l.purge conf).hold conf).markEmpty.call (fetcher conf pton) conf := if_pos hcalls
  have hstate : ((l.purge conf).hold conf).markEmpty.fctx.state = .next :=
    ha.state.trans hnext
  have hdata : ((l.purge conf).hold conf).markEmpty.data = l.data := ha.data
  obtain ⟨hhist, hflags⟩ := call_next conf pton hstate
  rw [hdata] at hhist hflags
  refine ⟨((l.purge conf).hold conf).markEmpty.fctx, ?_, ?_, ?_, ?_⟩
  · show ((l.purge conf).hold conf).fctx.flags.purge = _
    rw [fctx_hold]
  · show ((l.purge conf).hold conf).queue.isEmpty = _
    rw [ha.queue]
  · rw [hpass, hhist]
  · rw [hpass, hflags]

/-! ## Folders are left when they are done -/

/-- In every run whose searches meet the guard, folders are closed when they should be. -/
theorem closes_when_stored
    (h : Lib.Runs.Reach (step (fetcher conf pton) conf)
      (stepGuard conf committedGuard noCommitGuard)
      (begin conf pton poll only user pass nocrammd5 nologin folders) l)
    (hrun : l.Running) (hnext : l.fctx.state = .next) : ClosesWhenStored conf pton l := by
  obtain ⟨-, hf⟩ := ((holds_sound h).run hrun).inFolder hnext rfl
  have hiff : l.data.data.committed = l.data.data.total ↔ AllStored l.data :=
    hf.committed_eq_total_iff
  have hdone : AllStored l.data → ∀ c : Ctx, c.flags.empty = l.queue.isEmpty →
      stateNext c l.data =
        if c.flags.purge then
          putTagged .expunge .expunge { c with flags := { c.flags with purge := false } } l.data
        else putTagged .close .close c l.data := by
    intro hall c hempty
    have hclose : Front poll .close l.queue (tally l.data) := hf.close (hiff.mpr hall)
    refine stateNext_done ?_ hclose.dropped hclose.kept (hiff.mpr hall) ?_
    · have hrest := hf.rest_eq_nil hall.length_eq
      simp only [List.append_eq_nil_iff] at hrest
      exact hrest.1.1.1
    · rw [hempty, hclose.queue]
      rfl
  constructor
  · exact fun _ => hiff
  · intro hsent
    by_cases hcalls : l.calls conf = true
    · obtain ⟨c, -, -, hhist, -⟩ := pass_next pton hcalls hnext
      rw [hhist] at hsent
      exact hiff.mp (committed_eq_total_of_sent_close hsent)
    · -- without a call nothing is sent
      have hdata : (l.pass (fetcher conf pton) conf).data = l.data := by
        rw [Loop.pass, if_neg hcalls]
        exact (agree_prepare conf l).data
      rw [hdata] at hsent
      simp at hsent
  · intro hcalls hfault hall hpurge
    obtain ⟨c, hcpurge, hcempty, hhist, -⟩ := pass_next pton hcalls hnext
    rw [hhist, hdone hall c hcempty, if_neg (by rw [hcpurge, hpurge]; decide), sent_putTagged,
      hfault]
    rfl
  · intro hcalls hfault hall hpurge
    obtain ⟨c, hcpurge, hcempty, hhist, hflags⟩ := pass_next pton hcalls hnext
    rw [hhist, hflags, hdone hall c hcempty, if_pos (by rw [hcpurge, hpurge]), sent_putTagged,
      hfault]
    refine ⟨rfl, ?_⟩
    unfold putTagged putln
    rw [show l.data.fault = false from hfault]
    rfl

/-- The condition cannot be weaker: a folder entered with mails counted as committed does
not have its counters right. -/
theorem not_inFolder_of_committed {q q' : List (Mail FetchImapMail)} {m : Mail FetchImapMail}
    {c : Ctx} {e : Env} (hf : Front poll .search3 q (tally e)) (hcommitted : e.data.committed ≠ 0) :
    ¬ InFolder .next m q' (tally (stateSearch3 c e).2.2) := by
  have hkeep : (stateSearch3 c e).2.2.data.committed = e.data.committed ∧
      (stateSearch3 c e).2.2.hist.stored = e.hist.stored := by
    refine imapGetln_cases (P := fun r => r.2.2.data.committed = e.data.committed ∧
      r.2.2.hist.stored = e.hist.stored) ⟨rfl, rfl⟩ (fun _ => ⟨rfl, rfl⟩) fun line b => ?_
    split_ifs
    · dsimp only
      split_ifs
      · unfold putTagged putln
        split_ifs <;> exact ⟨rfl, rfl⟩
      · exact ⟨rfl, rfl⟩
    · exact ⟨rfl, rfl⟩
  have hstored : e.hist.stored = [] := (hf.fresh rfl).2
  intro h
  have hcount : (stateSearch3 c e).2.2.data.committed
      = (stateSearch3 c e).2.2.hist.stored.length := h.committed
  rw [hkeep.1, hkeep.2, hstored] at hcount
  exact hcommitted hcount

/-! ## The second folder -/

/-- Two folders. -/
def sampleBegin : Loop Env State FetchImapMail :=
  begin {} (fun _ => none) false .all none none false false [['a'], ['b']]

/-- Connect to a server that asks for no password. -/
def connectFirst : List (Act Input) :=
  [.pass, .pass, srv ['*', ' ', 'P', 'R', 'E', 'A', 'U', 'T', 'H'], .pass]

/-- Select a folder, whose search finds the mail `uid`; `t` are the tags of the commands. -/
def selectFolder (uid : Char) (t t' : Char) : List (Act Input) :=
  [.pass, srv ['+'], .pass,
    srv ['*', ' ', '1', ' ', 'E', 'X', 'I', 'S', 'T', 'S'], .pass, srv [t, ' ', 'O', 'K'],
    .pass, .pass, srv ['*', ' ', 'S', 'E', 'A', 'R', 'C', 'H', ' ', uid], .pass,
    srv [t', ' ', 'O', 'K'], .pass]

/-- Fetch the mail. -/
def fetchMail (t : Char) : List (Act Input) :=
  [.pass,
    srv ['*', ' ', '1', ' ', 'F', 'E', 'T', 'C', 'H', ' ', '(', 'B', 'O', 'D', 'Y', '[', ']',
      ' ', '{', '3', '}'], .pass, srv ['x'], srv [')'], .pass, srv [t, ' ', 'O', 'K'], .pass]

/-- Drop it, and close the folder. -/
def dropAndClose : List (Act Input) :=
  [.dequeue 0 .drop, .pass, srv ['4', ' ', 'O', 'K'], .pass, .pass, srv ['5', ' ', 'O', 'K'],
    .pass]

/-- The first folder, up to its last mail. -/
def firstFolder : List (Act Input) :=
  connectFirst ++ selectFolder '5' '1' '2' ++ fetchMail '3'

/-- The second folder, with its mail fetched and not committed. -/
def secondFolder : List (Act Input) :=
  firstFolder ++ dropAndClose ++ selectFolder '8' '6' '7' ++ fetchMail '8'

/-- The guard, as a test for the sample runs. -/
def meetsCommittedGuard (l : Loop Env State FetchImapMail) (_ : Act Input) : Bool :=
  l.fctx.state ≠ .search3 || l.data.data.wanted = [] || l.data.data.committed = 0

theorem guard_of_meetsCommittedGuard (l : Loop Env State FetchImapMail) (a : Act Input)
    (h : meetsCommittedGuard l a = true) : stepGuard {} committedGuard noCommitGuard l a := by
  cases a with
  | pass =>
    intro _ hsearch hwanted
    simpa [meetsCommittedGuard, hsearch, hwanted] using h
  | _ => simp [stepGuard, noCommitGuard]

theorem firstFolder_runs :
    (Lib.Runs.exec (Lib.Runs.guarded (step (fetcher {} fun _ => none) {}) meetsCommittedGuard)
      sampleBegin firstFolder).isSome = true := by decide

theorem closes_when_stored_firstFolder :
    ∃ l : Loop Env State FetchImapMail, l.data.hist.selected = [5] ∧
      ClosesWhenStored {} (fun _ => none) l :=
  ⟨_, by decide +kernel, closes_when_stored (Lib.Runs.reach_getGuarded
    guard_of_meetsCommittedGuard firstFolder_runs) (by decide +kernel) (by decide +kernel)⟩

theorem secondFolder_runs :
    (Lib.Runs.exec (step (fetcher {} fun _ => none) {}) sampleBegin secondFolder).isSome = true := by
  decide

/-- The mail of the second folder is still queued when the folder is closed. -/
theorem closed_too_early :
    ∃ l, Lib.Runs.Reach (step (fetcher {} fun _ => none) {}) Lib.Runs.anyStep sampleBegin l ∧
      l.Running ∧ l.fctx.state = .next ∧ l.queue ≠ [] ∧
      ¬ ClosesWhenStored {} (fun _ => none) l := by
  refine ⟨_, Lib.Runs.reach_get secondFolder_runs, by decide +kernel, by decide +kernel,
    by decide +kernel, fun h => ?_⟩
  exact absurd (h.only (by decide +kernel)) (by decide +kernel)

end Fdm.Imap
