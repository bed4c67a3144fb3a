import Fdm.Parent.Children
import Fdm.Conf.Theorems

/-!
# The loop of the parent

`main` starts a fetch child for each account that is used, and as many at once as
`parallel-accounts` says. One step is one call of the loop, with what it returns, or something that
happens outside the parent meanwhile; what the parent does about its children is a step of `Parent`.
-/

namespace Fdm.Parent

open Lib.Runs
open Conf (Account)

variable {φ κ δ : Type}

/-! ## Accounts -/

section
variable (accountMatch : List Char → List Char → Bool) (incl excl : List (List Char))

/-- `check_incl`; `accountMatch` is `fnmatch` with a pattern and the name of an account. -/
def checkIncl (name : List Char) : Bool :=
  incl.isEmpty || incl.any fun pattern => accountMatch pattern name

/-- `check_excl`. -/
def checkExcl (name : List Char) : Bool :=
  !excl.isEmpty && excl.any fun pattern => accountMatch pattern name

/-- `use_account`. A disabled account is used if the command line names it. -/
def useAccount (a : Account φ) : Bool :=
  checkIncl accountMatch incl a.name && !checkExcl accountMatch excl a.name &&
    !(a.disabled && incl.isEmpty)

/-- `actaq`, as `main` fills it: `TAILQ_INSERT_HEAD`. -/
def actaq (accounts : List (Account φ)) : List (Account φ) :=
  accounts.foldl (fun q a => if useAccount accountMatch incl excl a then a :: q else q) []

/-- The accounts that are used, the last one first. -/
theorem actaq_eq (accounts : List (Account φ)) :
    actaq accountMatch incl excl accounts =
      (accounts.filter (useAccount accountMatch incl excl)).reverse := by
  have hfold (q : List (Account φ)) :
      accounts.foldl (fun q a => if useAccount accountMatch incl excl a then a :: q else q) q =
        (accounts.filter (useAccount accountMatch incl excl)).reverse ++ q := by
    induction accounts generalizing q with
    | nil => rfl
    | cons a accounts ih =>
      rw [List.foldl_cons, ih]
      by_cases huse : useAccount accountMatch incl excl a = true
      · rw [if_pos huse, List.filter_cons_of_pos huse, List.reverse_cons, List.append_assoc]
        rfl
      · rw [if_neg huse, List.filter_cons_of_neg huse]
  rw [actaq, hfold, List.append_nil]

end

/-! ## The loop -/

/-- Where `main` is in its loop. -/
inductive Phase
  /-- The conditions at the top. -/
  | top
  /-- While there is space. -/
  | start
  /-- `io_polln`, or `wait_children` if there is nothing to poll. -/
  | poll
  /-- `check_children`. -/
  | messages
  /-- `sigchld` is tested. -/
  | collect
  /-- `sigchld` is cleared. -/
  | clear
  /-- `dead_io` is closed. -/
  | close
  /-- Behind the loop. -/
  | left
deriving DecidableEq, Repr

inductive Signal
  | int
  | term
  | chld
deriving DecidableEq, Repr

/-- The variables of the loop. `cfd` has the account of each fetch child that was started, by the
address of the child, and `deadIo` the address of the child that `dead_io` belongs to. -/
structure Main (φ : Type) where
  actaq : List (Account φ)
  cfd : List (ℕ × Account φ) := []
  sys : Sys := {}
  phase : Phase := .top
  deadIo : Option ℕ := none
  sigint : Bool := false
  sigterm : Bool := false
  sigchld : Bool := false

namespace Main

/-- `sighandler`. -/
def signal (m : Main φ) : Signal → Main φ
  | .int => { m with sigint := true }
  | .term => { m with sigterm := true }
  | .chld => { m with sigchld := true }

/-- The parent gets to what it does in a phase. -/
def runs (m : Main φ) (phase : Phase) : Prop := m.phase = phase ∧ m.sys.fatal = false

instance (m : Main φ) (phase : Phase) : Decidable (m.runs phase) := by
  unfold Main.runs
  infer_instance

/-- There is space for another child, where `limit` is `max_accts`. -/
def space (limit : ℤ) (m : Main φ) : Prop :=
  m.actaq ≠ [] ∧ (limit < 0 ∨ (m.sys.children.length : ℤ) < limit)

instance (limit : ℤ) (m : Main φ) : Decidable (m.space limit) := by
  unfold space
  infer_instance

/-- `iol`. -/
def iol (m : Main φ) : List Child := m.sys.children.filter Child.io

end Main

inductive MainAct
  /-- Something that a child does. -/
  | child (act : Act)
  | signal (sig : Signal)
  /-- The conditions at the top of the loop. -/
  | check
  /-- A fetch child is started. -/
  | start (pid : ℕ)
  /-- There is no space for another one, or no account. -/
  | full
  /-- `io_polln`, with the child whose socket is dead. -/
  | poll (dead : Option Child)
  /-- `wait_children` until there are no children. -/
  | waitAll (exits : List (ℕ × Status))
  /-- A message of a child. -/
  | handle (child : Child) (calls : Calls)
  /-- No more messages have arrived. -/
  | noMessage
  /-- `wait_children` after `SIGCHLD`. -/
  | collect (exits : List (ℕ × Status)) (noChild : Bool)
  /-- There was no `SIGCHLD`. -/
  | noSignal
  /-- `sigchld` is cleared. -/
  | clear
  /-- The child with the dead socket is killed, if it is still there. -/
  | close

/-- What is not done by the parent. -/
def Act.ofChild : Act → Bool
  | .asks _ _ | .reports _ _ | .ends _ => true
  | _ => false

/-- One step, where `limit` is `max_accts`. -/
def Main.step (limit : ℤ) (m : Main φ) : MainAct → Option (Main φ)
  | .child act =>
    if act.ofChild then (Parent.step m.sys act).map fun sys => { m with sys := sys } else none
  | .signal sig => some (m.signal sig)
  | .check =>
    if m.runs .top then
      if (m.actaq = [] ∧ m.sys.children = []) ∨ m.sigint ∨ m.sigterm then
        some { m with phase := .left }
      else some { m with phase := .start }
    else none
  | .start pid =>
    if m.runs .start ∧ m.space limit then
      match m.actaq with
      | [] => none
      | a :: rest =>
        (Parent.step m.sys (.start pid)).map fun sys =>
          { m with actaq := rest, cfd := m.cfd ++ [(m.sys.next, a)], sys := sys }
    else none
  | .full => if m.runs .start ∧ ¬m.space limit then some { m with phase := .poll } else none
  | .poll none =>
    if m.runs .poll ∧ m.iol ≠ [] then some { m with phase := .messages, deadIo := none } else none
  | .poll (some child) =>
    if m.runs .poll ∧ child ∈ m.iol ∧
        (m.sys.ended child.addr = true ∨ m.sys.told child.addr = true) then
      some { m with phase := .messages, deadIo := some child.addr }
    else none
  | .waitAll exits =>
    if m.runs .poll ∧ m.iol = [] ∧ ∀ child ∈ m.sys.children, child.pid ∈ exits.map Prod.fst then
      (Parent.step m.sys (.wait exits true)).map fun sys =>
        { m with sys := sys, phase := .messages }
    else none
  | .handle child calls =>
    if m.runs .messages then
      (Parent.step m.sys (.handle child calls)).map fun sys => { m with sys := sys }
    else none
  | .noMessage => if m.runs .messages then some { m with phase := .collect } else none
  | .collect exits noChild =>
    if m.runs .collect ∧ m.sigchld then
      (Parent.step m.sys (.wait exits noChild)).map fun sys =>
        { m with sys := sys, phase := .clear }
    else none
  | .noSignal => if m.runs .collect ∧ ¬m.sigchld then some { m with phase := .clear } else none
  | .clear => if m.runs .clear then some { m with sigchld := false, phase := .close } else none
  | .close =>
    if m.runs .close then
      match m.sys.children.find? fun child => some child.addr = m.deadIo && child.io with
      | none => some { m with phase := .top }
      | some child =>
        (Parent.step m.sys (.dead child)).map fun sys => { m with sys := sys, phase := .top }
    else none

/-! ## Fetch children -/

/-- The number of fetch children. -/
def Sys.fetching (s : Sys) : ℕ := s.children.countP fun child => child.data = none

/-- No fetch child is added, and addresses are not used again. -/
structure Fewer (s s' : Sys) : Prop where
  fetching : s'.fetching ≤ s.fetching
  next : s.next ≤ s'.next

theorem Fewer.refl (s : Sys) : Fewer s s := ⟨Nat.le_refl _, Nat.le_refl _⟩

theorem Fewer.trans {s s' s'' : Sys} (h : Fewer s s') (h' : Fewer s' s'') : Fewer s s'' :=
  ⟨h'.fetching.trans h.fetching, h.next.trans h'.next⟩

/-- The tables are the same. -/
theorem SameTables.fewer {s s' : Sys} (h : SameTables s s') : Fewer s s' :=
  ⟨(congrArg (List.countP _) h.children).le, h.next.ge⟩

/-- A child without a request is a fetch child. -/
theorem fetching_childStart (pid : ℕ) (parent : Option ℕ) (data : Option Request) (s : Sys) :
    (childStart pid parent data s).fetching = s.fetching + if data = none then 1 else 0 := by
  show (s.children ++ [_]).countP _ = _
  rw [List.countP_append, List.countP_singleton]
  cases data <;> rfl

/-- A child that is reaped is gone. -/
theorem fewer_reap (pid : ℕ) (status : Status) (s : Sys) : Fewer s (reap pid status s) := by
  unfold reap
  dsimp only
  split
  · exact ⟨Nat.le_refl _, Nat.le_refl _⟩
  · exact ⟨List.Sublist.countP_le List.erase_sublist, Nat.le_refl _⟩

/-- And so are several. -/
theorem fewer_reapAll (exits : List (ℕ × Status)) (s : Sys) : Fewer s (reapAll exits s) := by
  induction exits generalizing s with
  | nil => exact .refl s
  | cons e exits ih => exact (fewer_reap _ _ s).trans (ih _)

/-- A socket that is closed removes no child. -/
theorem fewer_closeDead (a : ℕ) (s : Sys) : Fewer s (closeDead a s) := by
  refine ⟨Nat.le_of_eq ?_, Nat.le_refl _⟩
  show (s.children.map _).countP _ = _
  rw [List.countP_map]
  refine List.countP_congr fun child _ => ?_
  rw [Function.comp_apply]
  split_ifs <;> rfl

/-- A message may start a delivery or command child, but no fetch child. -/
theorem fewer_handle {s s' : Sys} {child : Child} {calls : Calls}
    (hs : Parent.handle child calls s = some s') : Fewer s s' := by
  unfold Parent.handle at hs
  split at hs
  · cases hs
  · next msg msgs hinbox =>
    dsimp only at hs
    split at hs
    · obtain rfl := Option.some_inj.mp hs
      rcases parentFetch_tables child.addr msg calls
        { s with inbox := Function.update s.inbox child.addr msgs } with hsame | ⟨r, hchild⟩
      · exact ⟨hsame.fewer.fetching, hsame.fewer.next⟩
      · rw [hchild]
        exact ⟨(fetching_childStart _ _ (some r) _).le, Nat.le_succ _⟩
    · next r hr =>
      obtain rfl := Option.some_inj.mp hs
      have hsame := parentDeliver_tables child.addr r msg calls
        { s with inbox := Function.update s.inbox child.addr msgs }
      exact ⟨hsame.fewer.fetching, hsame.fewer.next⟩

/-- Only a start adds a fetch child. -/
theorem fewer_step {s s' : Sys} {act : Act} (hact : ∀ pid, act ≠ .start pid)
    (hs : Parent.step s act = some s') : Fewer s s' := by
  cases act with
  | start pid => exact absurd rfl (hact pid)
  | handle child calls =>
    simp only [Parent.step] at hs
    split_ifs at hs
    exact fewer_handle hs
  | wait exits noChild =>
    simp only [Parent.step] at hs
    split_ifs at hs
    rw [waitChildren_results] at hs
    obtain rfl := Option.some_inj.mp hs
    exact ⟨(fewer_reapAll exits s).fetching, (fewer_reapAll exits s).next⟩
  | dead child =>
    simp only [Parent.step] at hs
    split_ifs at hs
    obtain rfl := Option.some_inj.mp hs
    exact fewer_closeDead child.addr s
  | _ =>
    simp only [Parent.step] at hs
    split_ifs at hs
    obtain rfl := Option.some_inj.mp hs
    exact ⟨Nat.le_refl _, Nat.le_refl _⟩

theorem step_start {s s' : Sys} {pid : ℕ} (hs : Parent.step s (.start pid) = some s') :
    s' = childStart pid none none s := by
  simp only [Parent.step] at hs
  split_ifs at hs
  exact (Option.some_inj.mp hs).symm

/-- What the children do leaves the table of the parent alone. -/
theorem children_ofChild {s s' : Sys} {act : Act} (hact : act.ofChild = true)
    (hs : Parent.step s act = some s') : s'.children = s.children := by
  cases act with
  | asks child msg | reports child error | ends child =>
    simp only [Parent.step] at hs
    split_ifs at hs
    obtain rfl := Option.some_inj.mp hs
    rfl
  | _ => cases hact

/-! ## Runs -/

namespace Main

/-- What is so in every state that is reached, where `queue` is the queue at the beginning. -/
structure Good (limit : ℤ) (queue : List (Account φ)) (m : Main φ) : Prop where
  reach : Reach Parent.step anyStep {} m.sys
  accounts : m.cfd.map Prod.snd ++ m.actaq = queue
  addrs : (m.cfd.map Prod.fst).Nodup
  started : ∀ a ∈ m.cfd.map Prod.fst, a < m.sys.next
  slots : 0 ≤ limit → (m.sys.fetching : ℤ) ≤ limit
  work : m.phase = .start ∨ m.phase = .poll → m.actaq ≠ [] ∨ m.sys.children ≠ []
  full : m.phase = .poll → ¬m.space limit
  left : m.phase = .left → (m.actaq = [] ∧ m.sys.children = []) ∨ m.sigint ∨ m.sigterm

variable {limit : ℤ} {queue : List (Account φ)} {m m' : Main φ}

/-- The parent does something about its children, and then is neither where it starts children nor
where it waits. -/
theorem Good.act (h : m.Good limit queue) {act : Act} {sys : Sys}
    (hs : Parent.step m.sys act = some sys) (hact : ∀ pid, act ≠ .start pid) {phase : Phase}
    (hphase : phase ≠ .start ∧ phase ≠ .poll ∧ phase ≠ .left) :
    ({ m with sys := sys, phase := phase } : Main φ).Good limit queue where
  reach := h.reach.tail trivial hs
  accounts := h.accounts
  addrs := h.addrs
  started a ha := (h.started a ha).trans_le (fewer_step hact hs).next
  slots hlimit := Int.le_trans (Int.ofNat_le.mpr (fewer_step hact hs).fetching) (h.slots hlimit)
  work hp := (hp.elim hphase.1 hphase.2.1).elim
  full hp := (hphase.2.1 hp).elim
  left hp := (hphase.2.2 hp).elim

/-- The parent goes on in its loop. -/
theorem Good.go (h : m.Good limit queue) {phase : Phase} {deadIo : Option ℕ} {sigchld : Bool}
    (hphase : phase ≠ .start ∧ phase ≠ .poll ∧ phase ≠ .left) :
    ({ m with phase, deadIo, sigchld } : Main φ).Good limit queue where
  reach := h.reach
  accounts := h.accounts
  addrs := h.addrs
  started := h.started
  slots := h.slots
  work hp := (hp.elim hphase.1 hphase.2.1).elim
  full hp := (hphase.2.1 hp).elim
  left hp := (hphase.2.2 hp).elim

/-- Something that a child does. -/
theorem Good.child (h : m.Good limit queue) {act : Act} {sys : Sys} (hact : act.ofChild = true)
    (hs : Parent.step m.sys act = some sys) :
    ({ m with sys := sys } : Main φ).Good limit queue := by
  have hchildren := children_ofChild hact hs
  have hfewer := fewer_step (fun pid heq => by rw [heq] at hact; cases hact) hs
  refine ⟨h.reach.tail trivial hs, h.accounts, h.addrs, fun a ha => (h.started a ha).trans_le
    hfewer.next, fun hlimit => Int.le_trans (Int.ofNat_le.mpr hfewer.fetching) (h.slots hlimit),
    ?_, ?_, ?_⟩
  · rw [hchildren]
    exact h.work
  · unfold space
    rw [hchildren]
    exact h.full
  · rw [hchildren]
    exact h.left

/-- The next account gets its fetch child. -/
theorem Good.start (h : m.Good limit queue) {pid : ℕ} {sys : Sys} {a : Account φ}
    {rest : List (Account φ)} (hqueue : m.actaq = a :: rest) (hphase : m.phase = .start)
    (hspace : m.space limit) (hs : Parent.step m.sys (.start pid) = some sys) :
    ({ m with actaq := rest, cfd := m.cfd ++ [(m.sys.next, a)], sys := sys } : Main φ).Good
      limit queue := by
  have hreach := h.reach.tail trivial hs
  obtain rfl := step_start hs
  have hnext : (childStart pid none none m.sys).next = m.sys.next + 1 := rfl
  have hfetching := fetching_childStart pid none none m.sys
  rw [if_pos rfl] at hfetching
  refine ⟨hreach, ?_, ?_, fun b hb => ?_, fun hlimit => ?_, fun _ => ?_, ?_, ?_⟩
  · rw [List.map_append, List.append_assoc, ← h.accounts, hqueue]
    rfl
  · rw [List.map_append]
    refine h.addrs.append (List.nodup_singleton _) ?_
    rintro b hb hnew
    rw [List.mem_singleton.mp hnew] at hb
    exact Nat.lt_irrefl _ (h.started _ hb)
  · rw [hnext]
    rw [List.map_append] at hb
    rcases List.mem_append.mp hb with hb | hb
    · exact (h.started b hb).trans (Nat.lt_succ_self _)
    · rw [List.mem_singleton.mp hb]
      exact Nat.lt_succ_self _
  · have hcount : m.sys.fetching ≤ m.sys.children.length := List.countP_le_length
    rw [hfetching]
    obtain ⟨-, hneg | hlt⟩ := hspace
    · omega
    · omega
  · exact .inr (List.append_ne_nil_of_right_ne_nil _ (List.cons_ne_nil _ _))
  · intro hpoll
    rw [hphase] at hpoll
    cases hpoll
  · intro hleft
    rw [hphase] at hleft
    cases hleft

/-- Each step of `main` keeps the invariant. -/
theorem Good.step (h : m.Good limit queue) {act : MainAct}
    (hs : m.step limit act = some m') : m'.Good limit queue := by
  cases act with
  | child act =>
    simp only [Main.step] at hs
    split_ifs at hs with hact
    obtain ⟨sys, hsys, rfl⟩ := Option.map_eq_some_iff.mp hs
    exact h.child hact hsys
  | signal sig =>
    obtain rfl := Option.some_inj.mp hs
    cases sig with
    | int => exact { h with left := fun _ => .inr (.inl rfl) }
    | term => exact { h with left := fun _ => .inr (.inr rfl) }
    | chld => exact { h with }
  | check =>
    simp only [Main.step] at hs
    split_ifs at hs with hrun hleave
    · obtain rfl := Option.some_inj.mp hs
      exact { h with
        work := fun hp => by rcases hp with hp | hp <;> cases hp
        full := nofun
        left := fun _ => hleave }
    · obtain rfl := Option.some_inj.mp hs
      refine { h with work := fun _ => ?_, full := nofun, left := nofun }
      by_contra hnone
      rw [not_or, not_not, not_not] at hnone
      exact hleave (.inl hnone)
  | start pid =>
    simp only [Main.step] at hs
    split_ifs at hs with hcan
    split at hs
    · cases hs
    · next a rest hqueue =>
      obtain ⟨sys, hsys, rfl⟩ := Option.map_eq_some_iff.mp hs
      exact h.start hqueue hcan.1.1 hcan.2 hsys
  | full =>
    simp only [Main.step] at hs
    split_ifs at hs with hcan
    obtain rfl := Option.some_inj.mp hs
    exact { h with work := fun _ => h.work (.inl hcan.1.1), full := fun _ => hcan.2, left := nofun }
  | poll dead =>
    cases dead with
    | none =>
      simp only [Main.step] at hs
      split_ifs at hs
      obtain rfl := Option.some_inj.mp hs
      exact h.go (by decide)
    | some child =>
      simp only [Main.step] at hs
      split_ifs at hs
      obtain rfl := Option.some_inj.mp hs
      exact h.go (by decide)
  | waitAll exits =>
    simp only [Main.step] at hs
    split_ifs at hs
    obtain ⟨sys, hsys, rfl⟩ := Option.map_eq_some_iff.mp hs
    exact h.act hsys nofun (by decide)
  | handle child calls =>
    simp only [Main.step] at hs
    split_ifs at hs with hrun
    obtain ⟨sys, hsys, rfl⟩ := Option.map_eq_some_iff.mp hs
    have hphase : m.phase ≠ .start ∧ m.phase ≠ .poll ∧ m.phase ≠ .left := by
      rw [hrun.1]
      decide
    exact h.act hsys nofun hphase
  | noMessage =>
    simp only [Main.step] at hs
    split_ifs at hs
    obtain rfl := Option.some_inj.mp hs
    exact h.go (by decide)
  | collect exits noChild =>
    simp only [Main.step] at hs
    split_ifs at hs
    obtain ⟨sys, hsys, rfl⟩ := Option.map_eq_some_iff.mp hs
    exact h.act hsys nofun (by decide)
  | noSignal =>
    simp only [Main.step] at hs
    split_ifs at hs
    obtain rfl := Option.some_inj.mp hs
    exact h.go (by decide)
  | clear =>
    simp only [Main.step] at hs
    split_ifs at hs
    obtain rfl := Option.some_inj.mp hs
    exact h.go (by decide)
  | close =>
    simp only [Main.step] at hs
    split_ifs at hs
    split at hs
    · obtain rfl := Option.some_inj.mp hs
      exact h.go (by decide)
    · next child hchild =>
      obtain ⟨sys, hsys, rfl⟩ := Option.map_eq_some_iff.mp hs
      exact h.act hsys nofun (by decide)

theorem good_begin (limit : ℤ) (queue : List (Account φ)) :
    ({ actaq := queue } : Main φ).Good limit queue where
  reach := .refl
  accounts := rfl
  addrs := List.nodup_nil
  started := nofun
  slots hlimit := hlimit
  work hp := by rcases hp with hp | hp <;> cases hp
  full := nofun
  left := nofun

theorem reach_good (h : Reach (Main.step limit) anyStep { actaq := queue } m) :
    m.Good limit queue :=
  h.invariant (good_begin limit queue) fun _ _ _ hI _ hs => hI.step hs

/-- A child that was started has been waited for, once there is no child. -/
theorem Good.collected (h : m.Good limit queue) (hchildren : m.sys.children = []) {a : ℕ}
    (ha : a ∈ m.cfd.map Prod.fst) : a ∈ m.sys.deadChildren.map Child.addr := by
  have hperm := (reached_moved h.reach).1.tables.addrs
  rw [hchildren, List.append_nil] at hperm
  exact hperm.mem_iff.mpr (List.mem_range.mpr (h.started a ha))

end Main

/-- A fetch child is started for each account that is used, once and in the opposite order of the
file, and for no other one. When the loop ends without a signal, all of them were started and have
been waited for. -/
theorem accounts_once (accountMatch : List Char → List Char → Bool) (incl excl : List (List Char))
    (accounts : List (Account φ)) (limit : ℤ) {m : Main φ}
    (h : Reach (Main.step limit) anyStep { actaq := actaq accountMatch incl excl accounts } m) :
    (m.cfd.map Prod.fst).Nodup ∧
      m.cfd.map Prod.snd ++ m.actaq =
        (accounts.filter (useAccount accountMatch incl excl)).reverse ∧
      (m.phase = .left → m.sigint = false → m.sigterm = false →
        m.actaq = [] ∧ ∀ a ∈ m.cfd.map Prod.fst, a ∈ m.sys.deadChildren.map Child.addr) := by
  have hgood := Main.reach_good h
  refine ⟨hgood.addrs, hgood.accounts.trans (actaq_eq _ _ _ _), fun hleft hint hterm => ?_⟩
  rcases hgood.left hleft with ⟨hqueue, hchildren⟩ | hsig | hsig
  · exact ⟨hqueue, fun a ha => hgood.collected hchildren ha⟩
  · rw [hint] at hsig
    cases hsig
  · rw [hterm] at hsig
    cases hsig

/-- Two accounts of which one is excluded. -/
def twoAccounts : List (Account Unit) :=
  [⟨['a'], false, none, false, ()⟩, ⟨['b'], false, none, false, ()⟩]

/-- The fetch child of the other one ends, is found by its dead socket, and waited for. -/
def oneChild : List MainAct :=
  [.check, .start 7, .full, .child (.ends ⟨0, 7, none, true, none⟩),
    .poll (some ⟨0, 7, none, true, none⟩), .noMessage, .signal .chld,
    .collect [(7, .exited 0)] true, .clear, .close, .check]

/-- Two accounts, of which one is asked for. -/
theorem accounts_once_oneChild :
    let begin : Main Unit := { actaq := actaq (· == ·) [] [['a']] twoAccounts }
    (exec (Main.step 1) begin oneChild).isSome = true ∧
      ∀ m, exec (Main.step 1) begin oneChild = some m →
        (m.cfd.map Prod.fst).Nodup ∧
          m.cfd.map Prod.snd ++ m.actaq =
            (twoAccounts.filter (useAccount (· == ·) [] [['a']])).reverse ∧
          (m.phase = .left → m.sigint = false → m.sigterm = false →
            m.actaq = [] ∧ ∀ a ∈ m.cfd.map Prod.fst, a ∈ m.sys.deadChildren.map Child.addr) :=
  ⟨by decide, fun _ hm => accounts_once _ _ _ _ _ (reach_of_exec hm)⟩

section
variable {env : Conf.Env} {arguments : List (List Char)} {cmds : List (Conf.Command φ κ δ)}
  {p : Conf.Parser φ κ δ} {m : Main φ}

/-- `parallel-accounts` is not zero. -/
theorem maxAccts_ne (h : Conf.parseConf env arguments cmds = .ok p) : p.settings.maxAccts ≠ 0 := by
  rcases (Conf.sound_parseConf h).settings.maxAccts with hunset | ⟨hpos, -⟩
  · rw [hunset]
    decide
  · exact (Int.ne_of_lt hpos).symm

/-- There are never more fetch children than `parallel-accounts` says; and when the parent waits
there is a child to wait for, and no account that could be started. -/
theorem accounts_parallel (accountMatch : List Char → List Char → Bool)
    (incl excl : List (List Char)) (hconf : Conf.parseConf env arguments cmds = .ok p)
    (h : Reach (Main.step p.settings.maxAccts) anyStep
      { actaq := actaq accountMatch incl excl p.accounts } m) :
    (0 ≤ p.settings.maxAccts → (m.sys.fetching : ℤ) ≤ p.settings.maxAccts) ∧
      (m.phase = .poll → m.sys.children ≠ [] ∧
        (m.actaq = [] ∨ 0 ≤ p.settings.maxAccts ∧
          p.settings.maxAccts ≤ m.sys.children.length)) := by
  have hlimit := maxAccts_ne hconf
  have hgood := Main.reach_good h
  refine ⟨hgood.slots, fun hpoll => ?_⟩
  have hfull : m.actaq = [] ∨ 0 ≤ p.settings.maxAccts ∧
      p.settings.maxAccts ≤ m.sys.children.length := by
    have hspace := hgood.full hpoll
    unfold Main.space at hspace
    by_cases hqueue : m.actaq = []
    · exact .inl hqueue
    · right
      have hnot : ¬(p.settings.maxAccts < 0 ∨
          (m.sys.children.length : ℤ) < p.settings.maxAccts) := fun h => hspace ⟨hqueue, h⟩
      omega
  refine ⟨?_, hfull⟩
  rcases hfull with hqueue | ⟨hpos, hlength⟩
  · exact (hgood.work (.inr hpoll)).resolve_left fun hne => hne hqueue
  · intro hnil
    rw [hnil] at hlength
    have hzero : p.settings.maxAccts ≤ 0 := hlength
    omega

/-- The two accounts, with `parallel-accounts` set to one. -/
def oneAtATime : Conf.Parser Unit Unit Unit :=
  { settings := { maxAccts := 1 }, accounts := twoAccounts }

/-- The first account waits while the second one is fetched. -/
theorem accounts_parallel_waits :
    let limit := oneAtATime.settings.maxAccts
    let begin : Main Unit := { actaq := actaq (· == ·) [] [] oneAtATime.accounts }
    (exec (Main.step limit) begin [.check, .start 7, .full]).isSome = true ∧
      ∀ m, exec (Main.step limit) begin [.check, .start 7, .full] = some m →
        (0 ≤ limit → (m.sys.fetching : ℤ) ≤ limit) ∧
          (m.phase = .poll → m.sys.children ≠ [] ∧
            (m.actaq = [] ∨ 0 ≤ limit ∧ limit ≤ m.sys.children.length)) := by
  refine ⟨by decide, fun m hm => ?_⟩
  have hconf : Conf.parseConf ⟨id, id⟩ []
      [.set (.parallelAccounts (.number 1)), .account ⟨.string ['a'], []⟩ false none () false,
        .account ⟨.string ['b'], []⟩ false none () false] = .ok oneAtATime := rfl
  exact accounts_parallel (· == ·) [] [] hconf (reach_of_exec hm)

end

end Fdm.Parent
