import Fdm.Imap.Faults

/-!
# The IMAP client against its server

A run of the fetch, together with whether one of its calls has gone wrong: `faulted_iff` says when
it has not, whatever the server sends and whenever it does.
-/

namespace Fdm.Imap

open Fdm.Fetch Lib.Runs

variable {conf : Conf} {pton : List Char → Option (List Char)}

/-! ## Runs -/

/-- The fetch, and whether a call of a state function has gone wrong. -/
structure Client where
  loop : Loop Env State FetchImapMail
  faulted : Bool := false

/-- The loop as the state function finds it. -/
def prepared (conf : Conf) (l : Loop Env State FetchImapMail) : Loop Env State FetchImapMail :=
  ((l.purge conf).hold conf).markEmpty

/-- What the step calls goes wrong. -/
def faults (conf : Conf) (pton : List Char → Option (List Char))
    (l : Loop Env State FetchImapMail) : Act Input → Bool
  | .pass =>
    l.calls conf && !decide (Faultless conf pton (prepared conf l).fctx (prepared conf l).data)
  | _ => false

/-- One step; behind a fault nothing is known. -/
def clientStep (conf : Conf) (pton : List Char → Option (List Char)) (cl : Client)
    (a : Act Input) : Option Client :=
  if cl.faulted then none
  else
    (step (fetcher conf pton) conf cl.loop a).map fun l =>
      { loop := l, faulted := faults conf pton cl.loop a }

/-- When a state function is called, it can deal with what has arrived. -/
def sensible (conf : Conf) (pton : List Char → Option (List Char)) (cl : Client) :
    Act Input → Bool
  | .pass => !cl.loop.calls conf || answered pton cl.loop.fctx cl.loop.data
  | _ => true

/-- Where a run starts. -/
def client (conf : Conf) (pton : List Char → Option (List Char)) (poll : Bool) (only : FetchOnly)
    (user pass : Option (List Char)) (nocrammd5 nologin : Bool) (folders : List (List Char)) :
    Client :=
  { loop := begin conf pton poll only user pass nocrammd5 nologin folders }

/-! ## Steps -/

/-- What the answers have to be does not depend on the flags. -/
theorem answered_agree {l l' : Loop Env State FetchImapMail} (h : Agree l l') :
    answered pton l'.fctx l'.data = answered pton l.fctx l.data := by
  rw [answered, answered, h.state, h.mail, h.data]

theorem agree_prepared (conf : Conf) (l : Loop Env State FetchImapMail) :
    Agree l (prepared conf l) :=
  (agree_prepare conf l).trans ⟨rfl, rfl, rfl, rfl, rfl, rfl, rfl⟩

/-- A step goes wrong just when it calls and cannot deal with what it reads. -/
theorem faults_eq {cl : Client} (h : (safe conf pton).Holds cl.loop)
    (hrun : cl.loop.ended = false) (a : Act Input) :
    faults conf pton cl.loop a = !sensible conf pton cl a := by
  cases a with
  | pass =>
    rw [faults, sensible, Bool.not_or, Bool.not_not]
    cases hcalls : cl.loop.calls conf with
    | false => rfl
    | true =>
      rw [Bool.true_and, Bool.true_and]
      have hagree := agree_prepared conf cl.loop
      have hrunning : (prepared conf cl.loop).Running := by
        rw [Loop.ended, Bool.or_eq_false_iff] at hrun
        rw [Loop.calls, Bool.and_eq_true, Bool.not_eq_true', Bool.not_eq_true'] at hcalls
        exact ⟨hagree.complete.trans hcalls.2, hagree.aborted.trans hrun.1⟩
      have hcall : Faultless conf pton (prepared conf cl.loop).fctx (prepared conf cl.loop).data ↔
          answered pton cl.loop.fctx cl.loop.data = true := by
        rw [← answered_agree hagree]
        exact call_iff ((h.agree hagree).run hrunning)
      simp [hcall]
  | _ => rfl

theorem ended_of_step {l l' : Loop Env State FetchImapMail} {a : Act Input}
    (h : step (fetcher conf pton) conf l a = some l') : l.ended = false := by
  by_contra hended
  rw [Bool.not_eq_false] at hended
  cases a <;> simp [step, hended] at h

theorem clientStep_cases {cl cl' : Client} {a : Act Input}
    (h : clientStep conf pton cl a = some cl') :
    cl.faulted = false ∧ step (fetcher conf pton) conf cl.loop a = some cl'.loop ∧
      cl'.faulted = faults conf pton cl.loop a := by
  rw [clientStep] at h
  split_ifs at h with hfaulted
  obtain ⟨l, hl, rfl⟩ := Option.map_eq_some_iff.mp h
  exact ⟨Bool.eq_false_iff.mpr hfaulted, hl, rfl⟩

theorem holds_clientStep {cl cl' : Client} {a : Act Input} (hI : (safe conf pton).Holds cl.loop)
    (h : clientStep conf pton cl a = some cl') : (safe conf pton).Holds cl'.loop := by
  obtain ⟨-, hstep, -⟩ := clientStep_cases h
  refine LoopInv.holds_step hI ?_ hstep
  cases a <;> simp [stepGuard, noCallGuard, noCommitGuard]

theorem faulted_clientStep {cl cl' : Client} {a : Act Input} (hI : (safe conf pton).Holds cl.loop)
    (h : clientStep conf pton cl a = some cl') : cl'.faulted = !sensible conf pton cl a := by
  obtain ⟨-, hstep, hfaulted⟩ := clientStep_cases h
  rw [hfaulted, faults_eq hI (ended_of_step hstep)]

/-! ## Whole runs -/

/-- No call of a run goes wrong just when each can deal with what the server has sent. -/
theorem faulted_iff {poll nocrammd5 nologin : Bool} {only : FetchOnly}
    {user pass : Option (List Char)} {folders : List (List Char)} {as : List (Act Input)}
    {cl : Client} (hfolders : folders ≠ [])
    (h : exec (clientStep conf pton)
      (client conf pton poll only user pass nocrammd5 nologin folders) as = some cl) :
    cl.faulted = false ↔
      exec (guarded (clientStep conf pton) (sensible conf pton))
        (client conf pton poll only user pass nocrammd5 nologin folders) as = some cl := by
  have hinit : (safe conf pton).Holds
      (client conf pton poll only user pass nocrammd5 nologin folders).loop :=
    ⟨fun _ => List.length_pos_iff.mpr hfolders, nofun, nofun, nofun, nofun⟩
  refine iff_execGuarded (I := fun cl => (safe conf pton).Holds cl.loop ∧ cl.faulted = false)
    (B := fun cl => cl.faulted = true) ?_ ?_ ?_ ⟨hinit, rfl⟩ h And.right ?_
  · intro cl a cl' hI hg hstep
    refine ⟨holds_clientStep hI.1 hstep, ?_⟩
    rw [faulted_clientStep hI.1 hstep, hg]
    rfl
  · intro cl a cl' hI hg hstep
    rw [faulted_clientStep hI.1 hstep, hg]
    rfl
  · intro cl a cl' hfaulted hstep
    rw [clientStep, if_pos hfaulted] at hstep
    cases hstep
  · intro hfaulted hnot
    rw [hfaulted] at hnot
    cases hnot

/-- A client without a password, and a server that asks for none. -/
def guest : Client := client {} (fun _ => none) false .all none none false false [['a']]

/-- The greeting, and the answer to `SELECT`. -/
def welcome : List (Act Input) :=
  [.pass, .pass, srv ['*', ' ', 'P', 'R', 'E', 'A', 'U', 'T', 'H'], .pass, .pass, srv ['+'], .pass]

theorem welcome_runs :
    (exec (clientStep {} fun _ => none) guest welcome).isSome = true := by decide

/-- A server that behaves. -/
theorem faulted_iff_welcome :
    ((exec (clientStep {} fun _ => none) guest welcome).get welcome_runs).faulted = false ↔
      exec (guarded (clientStep {} fun _ => none) (sensible {} fun _ => none)) guest welcome =
        some ((exec (clientStep {} fun _ => none) guest welcome).get welcome_runs) :=
  faulted_iff (List.cons_ne_nil _ _) (Option.some_get _).symm

/-! ## Servers that do not behave -/

/-- A client with a name and a password. -/
def member : Client :=
  client {} (fun _ => none) false .all (some ['u']) (some ['p']) false false [['a']]

/-- A greeting without a space. -/
def rude : List (Act Input) := [.pass, .pass, srv ['O', 'K'], .pass]

/-- A challenge that is no base64. -/
def garbled : List (Act Input) :=
  [.pass, .pass, srv ['*', ' ', 'O', 'K'], .pass,
    srv (['*', ' '] ++ imap4rev1 ++ [' '] ++ authCramMd5), .pass, srv ['1', ' ', 'O', 'K'], .pass,
    srv ['+', ' ', '!'], .pass]

/-- A selected folder with one mail, whose text is announced with the given size. -/
def announced (size : List Char) : List (Act Input) :=
  welcome ++
    [srv ['*', ' ', '1', ' ', 'E', 'X', 'I', 'S', 'T', 'S'], .pass, srv ['1', ' ', 'O', 'K'], .pass,
      .pass, srv ['*', ' ', 'S', 'E', 'A', 'R', 'C', 'H', ' ', '1'], .pass,
      srv ['2', ' ', 'O', 'K'], .pass, .pass,
      srv (['*', ' ', '1', ' ', 'F', 'E', 'T', 'C', 'H', ' ', '('] ++ bodyLiteral ++ size ++ ['}']),
      .pass]

/-- A text that ends with an empty line. -/
def hollow : List (Act Input) := announced ['1'] ++ [srv [], .pass]

/-- A text as long as `size_t` can say. -/
def endless : List (Act Input) := announced ['-', '1']

/-- How a run ends: whether a call has gone wrong. -/
def outcome (cl : Client) (as : List (Act Input)) : Option Bool :=
  (exec (clientStep {} fun _ => none) cl as).map Client.faulted

/-- The four ways to break the client. -/
theorem faulted_four_ways :
    outcome guest rude = some true ∧ outcome member garbled = some true ∧
      outcome guest hollow = some true ∧ outcome guest endless = some true := by
  decide +kernel

end Fdm.Imap
