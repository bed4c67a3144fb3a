import Fdm.Parent.Defs
import Mathlib.Data.List.Perm.Basic
import Mathlib.Data.List.Nodup

/-!
# Waiting for children

A child is in one of the two tables of the parent, and is moved from one to the other when
`waitpid` returns it; the result of `wait_children` says nothing about how the children ended.
-/

namespace Fdm.Parent

open Lib.Runs

/-! ## One call of `wait_children` -/

/-- The states that a call of `wait_children` goes through. -/
def reapAll (exits : List (ℕ × Status)) (s : Sys) : Sys :=
  exits.foldl (fun s e => reap e.1 e.2 s) s

/-- `wait_children` reaps what `waitpid` returns, and returns zero. -/
theorem waitChildren_results (exits : List (ℕ × Status)) (noChild : Bool) (retcode : ℕ) (s : Sys) :
    waitChildren (results exits noChild) retcode s = some (0, reapAll exits s) := by
  induction exits generalizing retcode s with
  | nil => cases noChild <;> rfl
  | cons e exits ih => exact ih _ _

/-- The tables of a state: the children have different pids, and all that were ever started have
different addresses. -/
structure Tables (s : Sys) : Prop where
  pids : (s.children.map Child.pid).Nodup
  addrs : ((s.deadChildren ++ s.children).map Child.addr).Perm (List.range s.next)

/-- The children that are dead are those that `waitpid` has returned, in its order. -/
structure Moved (s : Sys) : Prop where
  tables : Tables s
  reaped : s.deadChildren.map Child.pid = s.reaped.map Prod.fst

/-- The search of `wait_children` finds the child with a pid. -/
theorem find_pid {children : List Child} (h : (children.map Child.pid).Nodup) {child : Child}
    (hmem : child ∈ children) :
    children.find? (fun c => decide (c.pid = child.pid)) = some child := by
  induction children with
  | nil => cases hmem
  | cons c children ih =>
    rw [List.map_cons, List.nodup_cons] at h
    rcases List.mem_cons.mp hmem with rfl | hmem
    · simp
    · have hne : c.pid ≠ child.pid := fun heq => h.1 (heq ▸ List.mem_map_of_mem hmem)
      rw [List.find?_cons_of_neg (by simpa using hne)]
      exact ih h.2 hmem

/-- What becomes of a child that is reaped. -/
theorem reap_eq {s : Sys} (h : Tables s) {child : Child} (hmem : child ∈ s.children)
    (status : Status) :
    reap child.pid status s =
      { s with
        reaped := s.reaped ++ [(child.pid, status)]
        children := s.children.erase child
        deadChildren := s.deadChildren ++ [{ child with io := false }]
        killed := s.killed ++ ((s.children.erase child).filter fun child2 =>
          child2.parent = some child.addr).map Child.pid } := by
  simp only [reap, find_pid h.pids hmem]

theorem reap_moved {s : Sys} (h : Moved s) {child : Child} (hmem : child ∈ s.children)
    (status : Status) : Moved (reap child.pid status s) := by
  rw [reap_eq h.tables hmem]
  have hperm := List.perm_cons_erase hmem
  constructor
  · constructor
    · exact h.tables.pids.sublist (List.erase_sublist.map _)
    · refine List.Perm.trans ?_ h.tables.addrs
      simp only [List.map_append, List.map_cons, List.map_nil, List.append_assoc]
      exact List.Perm.append_left _ (hperm.map Child.addr).symm
  · simp [h.reaped]

/-- The other children can still be reaped. -/
theorem reap_children {s : Sys} (h : Tables s) {child : Child} (hmem : child ∈ s.children)
    (status : Status) {c : Child} (hc : c ∈ s.children) (hne : c.pid ≠ child.pid) :
    c ∈ (reap child.pid status s).children := by
  rw [reap_eq h hmem]
  exact (List.mem_erase_of_ne fun heq => hne (congrArg Child.pid heq)).mpr hc

theorem reap_ended (pid : ℕ) (status : Status) (s : Sys) : (reap pid status s).ended = s.ended := by
  unfold reap
  dsimp only
  split <;> rfl

/-- What one child that is reaped preserves, a whole call does. -/
theorem reapAll_induction {I : Sys → Prop} {P : ℕ → Prop} (hmoved : ∀ s, I s → Moved s)
    (hreap : ∀ s, I s → ∀ child ∈ s.children, P child.pid → s.ended child.addr = true →
      ∀ status, I (reap child.pid status s))
    {s : Sys} {exits : List (ℕ × Status)} (h : I s) (hP : ∀ pid ∈ exits.map Prod.fst, P pid)
    (hcan : s.canReap exits) : I (reapAll exits s) := by
  induction exits generalizing s with
  | nil => exact h
  | cons e exits ih =>
    obtain ⟨pid, status⟩ := e
    obtain ⟨hnodup, hchildren⟩ := hcan
    rw [List.map_cons, List.nodup_cons] at hnodup
    rw [List.map_cons, List.forall_mem_cons] at hP
    obtain ⟨child, hmem, hpid, hended⟩ := hchildren pid (by simp)
    subst hpid
    refine ih (hreap s h child hmem hP.1 hended status) hP.2 ⟨hnodup.2, fun pid hpid => ?_⟩
    obtain ⟨c, hc, hcpid, hcended⟩ := hchildren pid (by simp [hpid])
    have hne : c.pid ≠ child.pid := fun heq => hnodup.1 (heq ▸ hcpid ▸ hpid)
    refine ⟨c, reap_children (hmoved s h).tables hmem status hc hne, hcpid, ?_⟩
    rw [reap_ended]
    exact hcended

/-! ## Runs -/

theorem childStart_tables {s : Sys} (h : Tables s) {pid : ℕ} (hfree : s.freePid pid)
    (parent : Option ℕ) (data : Option Request) : Tables (childStart pid parent data s) where
  pids := by
    simpa [childStart, List.nodup_append] using ⟨h.pids, fun c hc heq => hfree c hc heq⟩
  addrs := by
    simp only [childStart, List.map_append, List.map_cons, List.map_nil, ← List.append_assoc,
      List.range_succ]
    exact (by simpa using h.addrs : ((s.deadChildren.map Child.addr ++ s.children.map Child.addr)).Perm
      (List.range s.next)).append_right _

/-- The tables and the history that a step leaves alone. -/
theorem moved_congr {s s' : Sys} (h : Moved s) (hchildren : s'.children = s.children)
    (hdead : s'.deadChildren = s.deadChildren) (hnext : s'.next = s.next)
    (hreaped : s'.reaped = s.reaped) : Moved s' :=
  ⟨⟨hchildren ▸ h.tables.pids, by rw [hchildren, hdead, hnext]; exact h.tables.addrs⟩,
    by rw [hdead, hreaped]; exact h.reaped⟩

/-- Two states with the same tables. -/
structure SameTables (s s' : Sys) : Prop where
  children : s'.children = s.children
  deadChildren : s'.deadChildren = s.deadChildren
  next : s'.next = s.next
  reaped : s'.reaped = s.reaped
  res : s'.res = s.res

theorem sendExit_tables (a : ℕ) (s : Sys) : SameTables s (sendExit a s) := by
  unfold sendExit
  split <;> exact ⟨rfl, rfl, rfl, rfl, rfl⟩

theorem parentFetchError_tables (a id : ℕ) (command : Bool) (s : Sys) :
    SameTables s (parentFetchError a id command s) := by
  unfold parentFetchError
  split <;> exact ⟨rfl, rfl, rfl, rfl, rfl⟩

/-- About a message, the parent starts a child or leaves the tables alone. -/
theorem parentFetch_tables (a : ℕ) (msg : Message) (calls : Calls) (s : Sys) :
    SameTables s (parentFetch a msg calls s) ∨
      ∃ r, parentFetch a msg calls s = childStart calls.pid (some a) (some r) s := by
  cases msg with
  | action id wrback =>
    simp only [parentFetch]
    split
    · exact .inl (parentFetchError_tables _ _ _ _)
    · exact .inr ⟨_, rfl⟩
  | command id =>
    simp only [parentFetch]
    split
    · exact .inl (parentFetchError_tables _ _ _ _)
    · exact .inr ⟨_, rfl⟩
  | done error => exact .inl ⟨rfl, rfl, rfl, rfl, rfl⟩
  | exit => exact .inl (sendExit_tables a s)

theorem parentDeliver_tables (a : ℕ) (r : Request) (msg : Message) (calls : Calls) (s : Sys) :
    SameTables s (parentDeliver a r msg calls s) := by
  cases msg with
  | done error =>
    simp only [parentDeliver]
    have hexit := fun s => sendExit_tables a s
    split
    · exact ⟨(hexit _).children, (hexit _).deadChildren, (hexit _).next, (hexit _).reaped,
        (hexit _).res⟩
    · exact hexit s
  | _ => exact ⟨rfl, rfl, rfl, rfl, rfl⟩

theorem SameTables.moved {s s' : Sys} (hs : SameTables s s') (h : Moved s) : Moved s' :=
  moved_congr h hs.children hs.deadChildren hs.next hs.reaped

theorem handle_moved {s s' : Sys} {child : Child} {calls : Calls} (h : Moved s)
    (hfree : s.freePid calls.pid) (hs : handle child calls s = some s') :
    Moved s' ∧ s'.res = s.res := by
  unfold handle at hs
  split at hs
  · cases hs
  · next msg msgs hinbox =>
    have hstart : SameTables s { s with inbox := Function.update s.inbox child.addr msgs } :=
      ⟨rfl, rfl, rfl, rfl, rfl⟩
    dsimp only at hs
    split at hs
    · obtain rfl := Option.some_inj.mp hs
      rcases parentFetch_tables child.addr msg calls
        { s with inbox := Function.update s.inbox child.addr msgs } with hsame | ⟨r, hchild⟩
      · exact ⟨hsame.moved (hstart.moved h), hsame.res⟩
      · rw [hchild]
        exact ⟨⟨childStart_tables (hstart.moved h).tables hfree _ _, (hstart.moved h).reaped⟩, rfl⟩
    · obtain rfl := Option.some_inj.mp hs
      have hsame := parentDeliver_tables child.addr (by assumption) msg calls
        { s with inbox := Function.update s.inbox child.addr msgs }
      exact ⟨hsame.moved (hstart.moved h), hsame.res⟩

theorem closeDead_moved {s : Sys} (h : Moved s) (a : ℕ) : Moved (closeDead a s) := by
  have hmap (f : Child → ℕ) (hf : ∀ c : Child, f { c with io := false } = f c) :
      (closeDead a s).children.map f = s.children.map f := by
    rw [closeDead, List.map_map]
    apply List.map_congr_left
    intro c _
    show f (if c.addr = a then { c with io := false } else c) = f c
    split_ifs
    · exact hf c
    · rfl
  constructor
  · constructor
    · rw [hmap Child.pid fun _ => rfl]
      exact h.tables.pids
    · rw [List.map_append, hmap Child.addr fun _ => rfl, ← List.map_append]
      exact h.tables.addrs
  · exact h.reaped

/-- A step moves the children that are reaped, and the result stays as it is. -/
theorem step_moved {s s' : Sys} {act : Act} (h : Moved s) (hs : step s act = some s') :
    Moved s' ∧ s'.res = s.res := by
  cases act with
  | start pid =>
    simp only [step] at hs
    split_ifs at hs with hcan
    obtain rfl := Option.some_inj.mp hs
    exact ⟨⟨childStart_tables h.tables hcan.2 _ _, h.reaped⟩, rfl⟩
  | asks child msg =>
    simp only [step] at hs
    split_ifs at hs
    obtain rfl := Option.some_inj.mp hs
    exact ⟨moved_congr h rfl rfl rfl rfl, rfl⟩
  | reports child error =>
    simp only [step] at hs
    split_ifs at hs
    obtain rfl := Option.some_inj.mp hs
    exact ⟨moved_congr h rfl rfl rfl rfl, rfl⟩
  | ends child =>
    simp only [step] at hs
    split_ifs at hs
    obtain rfl := Option.some_inj.mp hs
    exact ⟨moved_congr h rfl rfl rfl rfl, rfl⟩
  | handle child calls =>
    simp only [step] at hs
    split_ifs at hs with hcan
    exact handle_moved h hcan.2.2.2 hs
  | wait exits noChild =>
    simp only [step] at hs
    split_ifs at hs with hcan
    rw [waitChildren_results] at hs
    obtain rfl := Option.some_inj.mp hs
    have hall : Moved (reapAll exits s) ∧ (reapAll exits s).res = s.res :=
      reapAll_induction (I := fun t => Moved t ∧ t.res = s.res) (P := fun _ => True)
        (fun _ ht => ht.1)
        (fun t ht child hmem _ _ status =>
          ⟨reap_moved ht.1 hmem status, by rw [reap_eq ht.1.tables hmem]; exact ht.2⟩)
        ⟨h, rfl⟩ (fun _ _ => trivial) hcan.2
    exact ⟨moved_congr hall.1 rfl rfl rfl rfl, by simpa using hall.2⟩
  | dead child =>
    simp only [step] at hs
    split_ifs at hs
    obtain rfl := Option.some_inj.mp hs
    exact ⟨closeDead_moved h child.addr, rfl⟩
  | fails =>
    simp only [step] at hs
    split_ifs at hs
    obtain rfl := Option.some_inj.mp hs
    exact ⟨moved_congr h rfl rfl rfl rfl, rfl⟩

/-- In every state that is reached, the children are in their tables, and the result is that no
child has failed. -/
theorem reached_moved {s : Sys} (h : Reach step anyStep {} s) : Moved s ∧ s.res = false := by
  refine h.invariant (I := fun s => Moved s ∧ s.res = false) ?_ fun s act s' hI _ hs => ?_
  · exact ⟨⟨⟨List.nodup_nil, List.Perm.refl _⟩, rfl⟩, rfl⟩
  · have hstep := step_moved hI.1 hs
    exact ⟨hstep.1, hstep.2.trans hI.2⟩

/-! ## The exit status -/

/-- The exit status says whether a child failed or `fdm` was interrupted, and each child that is
reaped is moved once. It is so in just those runs in which there was an interruption or no child
failed. -/
theorem exitStatus_iff {s : Sys} (h : Reach step anyStep {} s) (interrupted : Bool) :
    ((exitStatus s interrupted = true ↔
        (∃ e ∈ s.reaped, e.2.bad = true) ∨ interrupted = true) ∧ Moved s) ↔
      interrupted = true ∨ ∀ e ∈ s.reaped, e.2.bad = false := by
  obtain ⟨hmoved, hres⟩ := reached_moved h
  have hstatus : exitStatus s interrupted = interrupted := by simp [exitStatus, hres]
  rw [hstatus]
  constructor
  · rintro ⟨hiff, -⟩
    by_cases hint : interrupted = true
    · exact .inl hint
    · right
      intro e he
      by_contra hbad
      exact hint (hiff.mpr (.inl ⟨e, he, by simpa using hbad⟩))
  · intro hcond
    refine ⟨⟨.inr, ?_⟩, hmoved⟩
    rintro (⟨e, he, hbad⟩ | hint)
    · rcases hcond with hint | hgood
      · exact hint
      · simp [hgood e he] at hbad
    · exact hint

/-- A fetch child with the pid 7 that fails. -/
def failedChild : List Act := [.start 7, .ends ⟨0, 7, none, true, none⟩, .wait [(7, .exited 1)] true]

theorem exitStatus_iff_failed :
    (exec step {} failedChild).isSome = true ∧
      ∀ s, exec step {} failedChild = some s →
        (((exitStatus s true = true ↔
          (∃ e ∈ s.reaped, e.2.bad = true) ∨ true = true) ∧ Moved s) ↔
            true = true ∨ ∀ e ∈ s.reaped, e.2.bad = false) :=
  ⟨by decide, fun _ hs => exitStatus_iff (reach_of_exec hs) true⟩

theorem failedChild_unnoticed : ∃ s, exec step {} failedChild = some s ∧
    ¬ (exitStatus s false = true ↔ (∃ e ∈ s.reaped, e.2.bad = true) ∨ false = true) :=
  ⟨_, rfl, by decide⟩

end Fdm.Parent
