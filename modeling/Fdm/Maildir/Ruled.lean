import Fdm.Account.Commits
import Fdm.Maildir.Unlinks

/-!
# What a maildir fetch unlinks, and why

From the rules to the directory: a file is unlinked when its mail has been committed with the
decision to drop it, and no other file is.
-/

namespace Fdm.FetchMaildir

open Fetch Account Lib.Runs

variable {κ δ υ σ γ ρ : Type}

/-! ## The fetcher -/

/-- What has been unlinked, or will be, has been committed. -/
structure Unlinks (e : Env) (log : List (Option ℕ × Mail (List Char))) : Prop where
  unlinklist : ∀ path ∈ e.data.unlinklist, Logged log .drop path
  unlinked : ∀ path ∈ e.hist.unlinked, Logged log .drop path

/-- What a call of a state function does: files on the list may be unlinked, and none is put on
it. -/
structure Removes (e e' : Env) : Prop where
  unlinklist : e'.data.unlinklist ⊆ e.data.unlinklist
  unlinked : e'.hist.unlinked ⊆ e.hist.unlinked ++ e.data.unlinklist

/-- A step that only removes files which wait keeps the account of what was removed. -/
theorem Unlinks.removes {e e' : Env} {log : List (Option ℕ × Mail (List Char))}
    (h : Unlinks e log) (hremoves : Removes e e') : Unlinks e' log where
  unlinklist path hpath := h.unlinklist path (hremoves.unlinklist hpath)
  unlinked path hpath := by
    rcases List.mem_append.mp (hremoves.unlinked hpath) with hbefore | hlist
    · exact h.unlinked path hbefore
    · exact h.unlinklist path hlist

/-- More mails may be logged. -/
theorem Unlinks.mono {e : Env} {log log' : List (Option ℕ × Mail (List Char))} (h : Unlinks e log)
    (hsub : log ⊆ log') : Unlinks e log' where
  unlinklist path hpath := (h.unlinklist path hpath).mono hsub
  unlinked path hpath := (h.unlinked path hpath).mono hsub

section

variable {e e' : Env} {fctx : Ctx}

/-- Nothing is unlinked. -/
theorem Removes.quiet (hlist : e'.data.unlinklist ⊆ e.data.unlinklist)
    (hunlinked : e'.hist.unlinked = e.hist.unlinked) : Removes e e' :=
  ⟨hlist, hunlinked ▸ List.subset_append_left _ _⟩

theorem removes_stateInit (maxPathLen : ℕ) : Removes e (stateInit maxPathLen fctx e).2.2 := by
  unfold stateInit
  split
  · exact .quiet (List.Subset.refl _) rfl
  · exact .quiet (List.Subset.refl _) rfl
  · dsimp only
    split_ifs
    · split
      · exact .quiet (List.nil_subset _) rfl
      · exact .quiet (List.nil_subset _) rfl
    · exact .quiet (List.nil_subset _) rfl

/-- The files on the list are unlinked, up to the first that cannot be. -/
theorem removes_stateNext : Removes e (stateNext fctx e).2.2 := by
  have hlist := unlinkAll_prefix e.world e.data.unlinklist
  have hunlinked : e.hist.unlinked ++ (unlinkAll e.world e.data.unlinklist).1 ⊆
      e.hist.unlinked ++ e.data.unlinklist :=
    List.append_subset.mpr ⟨List.subset_append_left _ _,
      List.Subset.trans hlist.subset (List.subset_append_right _ _)⟩
  unfold stateNext
  dsimp only
  split
  · exact ⟨List.Subset.refl _, hunlinked⟩
  · generalize (if e.data.index < e.data.paths.length then e.data.index + 1 else e.data.index) = index
    split_ifs
    · exact ⟨List.nil_subset _, hunlinked⟩
    · exact ⟨List.nil_subset _, hunlinked⟩
    · exact ⟨List.nil_subset _, hunlinked⟩

theorem removes_stateOpen : Removes e (stateOpen fctx e).2.2 := by
  unfold stateOpen
  split
  · exact .quiet (List.Subset.refl _) rfl
  · split
    · exact .quiet (List.Subset.refl _) rfl
    · exact .quiet (List.Subset.refl _) rfl

/-- Reading a mail removes nothing. -/
theorem removes_readMail (conf : Conf) (name : List Char) (size : ℕ)
    (hlist : e'.data.unlinklist = e.data.unlinklist)
    (hunlinked : e'.hist.unlinked = e.hist.unlinked) :
    Removes e (readMail conf name size fctx e').2.2 := by
  have hsub : e'.data.unlinklist ⊆ e.data.unlinklist := hlist ▸ List.Subset.refl _
  unfold readMail
  split_ifs
  · exact .quiet hsub hunlinked
  · exact .quiet hsub hunlinked
  · exact .quiet hsub hunlinked
  · split
    · exact .quiet hsub hunlinked
    · split_ifs
      · exact .quiet hsub hunlinked
      · exact .quiet hsub hunlinked

theorem removes_stateMail (conf : Conf) (maxPathLen : ℕ) :
    Removes e (stateMail conf maxPathLen fctx e).2.2 := by
  unfold stateMail
  split
  · split
    · split_ifs
      · exact .quiet (List.Subset.refl _) rfl
      · exact .quiet (List.Subset.refl _) rfl
    · exact .quiet (List.Subset.refl _) rfl
    · exact removes_readMail conf _ _ rfl rfl
  · exact .quiet (List.Subset.refl _) rfl

/-- A state function only removes files that wait. -/
theorem removes_state (conf : Conf) (maxPathLen : ℕ) (fctx : Ctx) (e : Env) :
    Removes e (state conf maxPathLen fctx e).2.2 := by
  unfold state
  cases fctx.state with
  | init => exact removes_stateInit maxPathLen
  | next => exact removes_stateNext
  | «open» => exact removes_stateOpen
  | mail => exact removes_stateMail conf maxPathLen

end

/-! ## The commits -/

/-- What waits to be unlinked has been committed. -/
theorem unlinks_commit {e : Env} {log : List (Option ℕ × Mail (List Char))} (h : Unlinks e log)
    (conf : Conf) (maxPathLen : ℕ) (n : Option ℕ) (m : Mail (List Char)) :
    Committed (fetcher conf maxPathLen) (fun e => Unlinks e (log ++ [(n, m)]))
      (fun e => Unlinks e log) (commit m e) := by
  have hmore : Unlinks e (log ++ [(n, m)]) := h.mono (List.subset_append_left _ _)
  unfold commit
  split
  · next path hdrop hpath =>
    refine ⟨?_, hmore.unlinked⟩
    intro x hx
    rcases List.mem_append.mp hx with hx | hx
    · exact hmore.unlinklist x hx
    · obtain rfl := List.mem_singleton.mp hx
      exact .last log n hdrop hpath
  -- a mail without a path cannot be dropped
  · exact ⟨h.unlinklist, h.unlinked⟩
  · exact ⟨hmore.unlinklist, hmore.unlinked⟩
  · exact hmore

/-- The fetcher keeps the account of what was removed. -/
theorem unlinks_kept (conf : Conf) (maxPathLen : ℕ) : KeptBy (fetcher conf maxPathLen) Unlinks where
  state fctx e _ h := h.removes (removes_state conf maxPathLen fctx e)
  commit n m _ _ h := unlinks_commit h conf maxPathLen n m
  abort _ _ h := ⟨nofun, h.unlinked⟩
  auxfree _ _ _ h := h
  input _ _ _ h := ⟨h.unlinklist, h.unlinked⟩

/-- Where an account that is fetched from maildirs starts. -/
def maildirStart (set : Account.Settings κ δ σ (List Char)) (maxPathLen : ℕ) (poll : Bool)
    (maildirs : List (List Char)) (w : World) (world : γ) :
    Whole κ δ υ σ γ ρ Env State (List Char) :=
  wholeStart (fetcher set.fetch maxPathLen) { poll := poll }
    (begin set.fetch maxPathLen poll maildirs w).data world

/-- In every run of an account that is fetched from maildirs, whatever others do there meanwhile,
each file that is unlinked is one whose mail the rules, evaluated to their end on it, have decided
to drop; or one that was too big, where `delete-oversized` is set. -/
theorem unlinks_ruled (set : Account.Settings κ δ σ (List Char)) (env : Rules.Env κ δ υ σ γ ρ)
    (maxPathLen : ℕ) (poll : Bool) (maildirs : List (List Char)) (w : World) (world : γ)
    {c : Whole κ δ υ σ γ ρ Env State (List Char)}
    (h : Reach (wholeStep (fetcher set.fetch maxPathLen) set env) (fun c _ => c.counts)
      (maildirStart set maxPathLen poll maildirs w world) c) :
    ∀ path ∈ c.side.data.hist.unlinked,
      ∃ m : Mail (List Char), m.decision = .drop ∧ m.auxdata = some path ∧
        ((∃ k, Ruled env set c k m) ∨ set.fetch.maxSize < m.size ∧ set.fetch.delBig = true) := by
  have hunlinks : Unlinks c.side.data c.side.log := by
    refine kept_run (unlinks_kept set.fetch maxPathLen) ?_ h
    exact ⟨nofun, nofun⟩
  intro path hpath
  obtain ⟨m, hdrop, haux, hruled⟩ :=
    (hunlinks.unlinked path hpath).ruled (fetcher set.fetch maxPathLen) set env _ _ world h
  exact ⟨m, hdrop, haux, hruled.imp_right And.right⟩

/-- Every mail is dropped. -/
def dropMaildir : Account.Settings Unit Unit Unit (List Char) where
  fetch := {}
  rules := { rules := [], implAct := some .drop }
  timeout := 900
  tags _ := ()
  fillIn m := m

/-- The one file is fetched. -/
def unlinkOne : Option (Whole Unit Unit Unit Unit Unit Unit Env State (List Char)) :=
  exec (guarded (wholeStep (fetcher dropMaildir.fetch 1024) dropMaildir Rules.idleEnv)
      fun c _ => c.counts)
    (maildirStart dropMaildir 1024 false [['m']] oneFile ()) (List.replicate 33 (.inr {}))

/-- A mail is fetched, dropped by the rules and removed. -/
theorem unlinks_ruled_unlinkOne :
    unlinkOne.map (fun c => c.side.data.hist.unlinked) =
      some [['m', '/', 'n', 'e', 'w', '/', 'f']] ∧
    ∀ c, unlinkOne = some c → ∀ path ∈ c.side.data.hist.unlinked,
      ∃ m : Mail (List Char), m.decision = .drop ∧ m.auxdata = some path ∧
        ((∃ k, Ruled Rules.idleEnv dropMaildir c k m) ∨
          dropMaildir.fetch.maxSize < m.size ∧ dropMaildir.fetch.delBig = true) :=
  ⟨by decide +kernel, fun _ hc => unlinks_ruled dropMaildir Rules.idleEnv 1024 false [['m']] oneFile ()
    (reach_of_execGuarded (fun _ _ => of_decide_eq_true) hc)⟩

end Fdm.FetchMaildir
