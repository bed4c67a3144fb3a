import Fdm.Locking.Exclusion

/-!
# What each call does

To the files (`openlock_files`, `deliver_files`) and to the locks (`openlock_step`,
`deliver_step`, `fetch_step`).
-/

namespace Fdm.Locking

open Lib.Owners

section
variable {ο ι : Type} {conf : Conf ι} {locks : LockTypes} {p : Proc ι} {d : ι} {b b' : Disk ο ι}

/-! ## Files -/

/-- The files are the same. -/
structure SameFiles (b b' : Disk ο ι) : Prop where
  path : b'.path = b.path
  content : b'.content = b.content
  next : b'.next = b.next

/-- The file that `createlock` makes. -/
def created (b : Disk ο ι) : Disk ο ι :=
  { b with
    path := some b.next
    content := Function.update b.content b.next []
    next := b.next + 1 }

/-- Locks are not on the files themselves. -/
theorem lockFlock_files {fd : ℕ} (h : lockFlock locks p fd b = some b') : SameFiles b b' := by
  unfold lockFlock at h
  split_ifs at h
  · obtain ⟨owner, -, rfl⟩ := Option.map_eq_some_iff.mp h
    exact ⟨rfl, rfl, rfl⟩
  · obtain rfl := Option.some.inj h
    exact ⟨rfl, rfl, rfl⟩

theorem lockFcntl_files {fd : ℕ} (h : lockFcntl locks p fd b = some b') : SameFiles b b' := by
  unfold lockFcntl at h
  split_ifs at h
  · obtain ⟨owner, -, rfl⟩ := Option.map_eq_some_iff.mp h
    exact ⟨rfl, rfl, rfl⟩
  · obtain rfl := Option.some.inj h
    exact ⟨rfl, rfl, rfl⟩

/-- A lock file is no mbox. -/
theorem mklock_files (h : mklock locks b = some b') : SameFiles b b' := by
  unfold mklock at h
  split_ifs at h
  · obtain rfl := Option.some.inj h
    exact ⟨rfl, rfl, rfl⟩
  · obtain rfl := Option.some.inj h
    exact ⟨rfl, rfl, rfl⟩

theorem rmlock_files (locks : LockTypes) (b : Disk ο ι) : SameFiles b (rmlock locks b) := by
  unfold rmlock
  split_ifs
  · exact ⟨rfl, rfl, rfl⟩
  · exact ⟨rfl, rfl, rfl⟩

/-- A call that touches no file; a file is opened at the path. -/
structure Quiet (b b' : Disk ο ι) (ph ph' : Phase) : Prop where
  files : SameFiles b b'
  opens : ∀ fd, ph'.fd = some fd → ph.fd = some fd ∨ b.path = some fd

/-- A call that opens nothing. -/
theorem SameFiles.quiet {ph ph' : Phase} (h : SameFiles b b')
    (hfd : ∀ fd, ph'.fd = some fd → ph.fd = some fd) : Quiet b b' ph ph' :=
  ⟨h, fun fd hph => Or.inl (hfd fd hph)⟩

theorem SameFiles.refl (b : Disk ο ι) : SameFiles b b := ⟨rfl, rfl, rfl⟩

variable [DecidableEq ι]

/-- Opening a mbox changes no file, unless it makes the mbox. -/
theorem openlock_files (locks : LockTypes) (p : Proc ι) (b : Disk ο ι) (o : Opening) :
    Quiet b (openlock locks p b o).2 o.phase (openlock locks p b o).1.phase ∨
      o = .open true ∧ b.path = none ∧ openlock locks p b o = (.go (.flock b.next), created b) := by
  unfold openlock
  cases o with
  | mklock create =>
    left
    dsimp only
    cases h : mklock locks b with
    | none => exact (SameFiles.refl b).quiet nofun
    | some b' => exact (mklock_files h).quiet nofun
  | «open» create =>
    cases hpath : b.path with
    | none =>
      cases create with
      | false =>
        left
        dsimp only
        exact (SameFiles.refl b).quiet nofun
      | true =>
        right
        dsimp only
        exact ⟨rfl, rfl, rfl⟩
    | some i =>
      left
      cases create with
      | false =>
        dsimp only
        refine ⟨SameFiles.refl b, fun fd hfd => Or.inr ?_⟩
        rw [hpath]
        exact hfd
      | true =>
        dsimp only
        exact (SameFiles.refl b).quiet nofun
  | flock fd =>
    left
    dsimp only
    cases h : lockFlock locks p fd b with
    | none => exact (SameFiles.refl b).quiet fun _ hfd => hfd
    | some b' => exact (lockFlock_files h).quiet fun _ hfd => hfd
  | fcntl fd =>
    left
    dsimp only
    cases h : lockFcntl locks p fd b with
    | none => exact (SameFiles.refl b).quiet fun _ hfd => hfd
    | some b' => exact (lockFcntl_files h).quiet fun _ hfd => hfd
  | close fd => exact Or.inl (SameFiles.quiet ⟨rfl, rfl, rfl⟩ nofun)
  | rmlock errno => exact Or.inl ((rmlock_files locks b).quiet nofun)

/-- How many pieces of its mail a deliverer has written. -/
def Deliver.written (pieces : ℕ) : Deliver → ℕ
  | .write _ k => k
  | .close _ true | .rmlock true | .finished true => pieces
  | _ => 0

/-- A call of a deliverer that writes nothing. -/
structure QuietDeliver (pieces : ℕ) (pc pc' : Deliver) (b b' : Disk ο ι) : Prop where
  quiet : Quiet b b' pc.phase pc'.phase
  written : pc'.written pieces ≤ pc.written pieces
  fresh : ∀ fd k, pc' ≠ .write fd (k + 1)

/-- The three kinds of calls of a deliverer. -/
theorem deliver_files {pc pc' : Deliver} (h : deliver conf d b pc = some (pc', b')) :
    QuietDeliver (conf.pieces d) pc pc' b b' ∨
      (pc = .opening (.open true) ∧ b.path = none ∧ pc' = .opening (.flock b.next) ∧
        b' = created b) ∨
      ∃ fd k, pc = .write fd k ∧ pc' = .write fd (k + 1) ∧
        b' = { b with
          content := Function.update b.content fd (b.content fd ++ [(.new d, k)]) } := by
  unfold deliver at h
  cases pc with
  | stat =>
    left
    dsimp only at h
    split_ifs at h
    · obtain ⟨rfl, rfl⟩ := Prod.mk.inj (Option.some.inj h)
      exact ⟨(SameFiles.refl b).quiet nofun, Nat.le_refl 0, nofun⟩
    · obtain ⟨rfl, rfl⟩ := Prod.mk.inj (Option.some.inj h)
      exact ⟨(SameFiles.refl b).quiet nofun, Nat.le_refl 0, nofun⟩
  | opening o =>
    dsimp only at h
    rcases openlock_files conf.locks (.deliver d) b o with hquiet | ⟨rfl, hpath, heq⟩
    · left
      split at h
      all_goals
        next heq =>
        obtain ⟨rfl, rfl⟩ := Prod.mk.inj (Option.some.inj h)
        rw [heq] at hquiet
        exact ⟨hquiet, Nat.le_refl 0, nofun⟩
    · right
      left
      rw [heq] at h
      obtain ⟨rfl, rfl⟩ := Prod.mk.inj (Option.some.inj h)
      exact ⟨rfl, hpath, rfl, rfl⟩
  | sleep =>
    left
    obtain ⟨rfl, rfl⟩ := Prod.mk.inj (Option.some.inj h)
    exact ⟨(SameFiles.refl b).quiet nofun, Nat.le_refl 0, nofun⟩
  | write fd k =>
    dsimp only at h
    by_cases hk : k < conf.pieces d
    · rw [if_pos hk] at h
      obtain ⟨rfl, rfl⟩ := Prod.mk.inj (Option.some.inj h)
      exact Or.inr (Or.inr ⟨fd, k, rfl, rfl, rfl⟩)
    · rw [if_neg hk] at h
      obtain ⟨rfl, rfl⟩ := Prod.mk.inj (Option.some.inj h)
      exact Or.inl ⟨(SameFiles.refl b).quiet fun _ hfd => hfd, Nat.le_of_not_lt hk, nofun⟩
  | close fd success =>
    left
    obtain ⟨rfl, rfl⟩ := Prod.mk.inj (Option.some.inj h)
    refine ⟨SameFiles.quiet ⟨rfl, rfl, rfl⟩ nofun, ?_, nofun⟩
    cases success <;> exact Nat.le_refl _
  | rmlock success =>
    left
    obtain ⟨rfl, rfl⟩ := Prod.mk.inj (Option.some.inj h)
    refine ⟨(rmlock_files conf.locks b).quiet nofun, ?_, nofun⟩
    cases success <;> exact Nat.le_refl _
  | finished success => cases h

/-! ## Locks -/

/-- `openlock` takes the locks in its order, or gives them up. -/
theorem openlock_step (locks : LockTypes) (p : Proc ι) (b : Disk ο ι) (o : Opening) :
    LockStep locks p o.phase b (openlock locks p b o).1.phase (openlock locks p b o).2 := by
  unfold openlock
  cases o with
  | mklock create =>
    dsimp only
    cases h : mklock locks b with
    | none => exact .stay .out ⟨rfl, rfl, rfl⟩
    | some b' => exact .take h
  | «open» create =>
    cases create with
    | false =>
      dsimp only
      cases h : b.path with
      | none => exact .stay .dot ⟨rfl, rfl, rfl⟩
      | some fd => exact .open fd ⟨rfl, rfl, rfl⟩
    | true =>
      dsimp only
      cases h : b.path with
      | none => exact .open b.next ⟨rfl, rfl, rfl⟩
      | some fd => exact .stay .dot ⟨rfl, rfl, rfl⟩
  | flock fd =>
    dsimp only
    cases h : lockFlock locks p fd b with
    | none => exact .stay (.opened fd) ⟨rfl, rfl, rfl⟩
    | some b' => exact .flock h
  | fcntl fd =>
    dsimp only
    cases h : lockFcntl locks p fd b with
    | none => exact .back b fd
    | some b' => exact .fcntl h
  | close fd => exact .close b rfl
  | rmlock errno => exact .drop b

/-- A step of a delivery. -/
theorem deliver_step {pc pc' : Deliver} (h : deliver conf d b pc = some (pc', b')) :
    LockStep conf.locks (.deliver d) pc.phase b pc'.phase b' := by
  unfold deliver at h
  cases pc with
  | stat =>
    dsimp only at h
    split_ifs at h
    · obtain ⟨rfl, rfl⟩ := Prod.mk.inj (Option.some.inj h)
      exact .stay .out ⟨rfl, rfl, rfl⟩
    · obtain ⟨rfl, rfl⟩ := Prod.mk.inj (Option.some.inj h)
      exact .stay .out ⟨rfl, rfl, rfl⟩
  | opening o =>
    have hstep := openlock_step conf.locks (.deliver d) b o
    dsimp only at h
    split at h
    all_goals
      next heq =>
      obtain ⟨rfl, rfl⟩ := Prod.mk.inj (Option.some.inj h)
      rw [heq] at hstep
      exact hstep
  | sleep =>
    obtain ⟨rfl, rfl⟩ := Prod.mk.inj (Option.some.inj h)
    exact .stay .out ⟨rfl, rfl, rfl⟩
  | write fd k =>
    dsimp only at h
    split_ifs at h
    · obtain ⟨rfl, rfl⟩ := Prod.mk.inj (Option.some.inj h)
      exact .stay (.locked fd) ⟨rfl, rfl, rfl⟩
    · obtain ⟨rfl, rfl⟩ := Prod.mk.inj (Option.some.inj h)
      exact .stay (.locked fd) ⟨rfl, rfl, rfl⟩
  | close fd success =>
    obtain ⟨rfl, rfl⟩ := Prod.mk.inj (Option.some.inj h)
    exact .close b rfl
  | rmlock success =>
    obtain ⟨rfl, rfl⟩ := Prod.mk.inj (Option.some.inj h)
    exact .drop b
  | finished success => cases h

/-! ## Phases of the system -/

variable {s : Sys ο ι}

theorem phase_deliver (s : Sys ο ι) (d : ι) (pc : Deliver) (b : Disk ο ι) :
    phase { s with deliver := Function.update s.deliver d pc, disk := b }
      = Function.update (phase s) (.deliver d) pc.phase := by
  funext p
  cases p with
  | fetch =>
    have hne : Proc.fetch ≠ .deliver d := nofun
    rw [Function.update_of_ne hne]
    rfl
  | deliver d' =>
    by_cases hd : d' = d
    · rw [hd, Function.update_self]
      show (Function.update s.deliver d pc d).phase = pc.phase
      rw [Function.update_self]
    · have hne : (Proc.deliver d') ≠ .deliver d := fun h => hd (Proc.deliver.inj h)
      rw [Function.update_of_ne hne]
      show (Function.update s.deliver d pc d').phase = (s.deliver d').phase
      rw [Function.update_of_ne hd]

/-- The deliverers after a step of one of them. -/
theorem update_deliver {pc : Deliver} {d d' : ι} {P : Deliver → Prop}
    (h : P (Function.update s.deliver d pc d')) : d' = d ∧ P pc ∨ d' ≠ d ∧ P (s.deliver d') := by
  by_cases hd : d' = d
  · rw [hd, Function.update_self] at h
    exact Or.inl ⟨hd, h⟩
  · rw [Function.update_of_ne hd] at h
    exact Or.inr ⟨hd, h⟩

theorem phase_fetch (s : Sys ο ι) (pc : Fetch (MailId ο ι)) (b : Disk ο ι) :
    phase { s with fetch := pc, disk := b } = Function.update (phase s) .fetch pc.phase := by
  funext p
  cases p with
  | fetch =>
    rw [Function.update_self]
    rfl
  | deliver d =>
    have hne : Proc.deliver d ≠ .fetch := nofun
    rw [Function.update_of_ne hne]
    rfl

variable [DecidableEq ο]

/-- A step of the fetcher. -/
theorem fetch_step {pc pc' : Fetch (MailId ο ι)} (h : fetch conf b pc = some (pc', b')) :
    LockStep conf.locks .fetch pc.phase b pc'.phase b' := by
  unfold fetch at h
  cases pc with
  | stat =>
    dsimp only at h
    cases hpath : b.path with
    | none =>
      rw [hpath] at h
      obtain ⟨rfl, rfl⟩ := Prod.mk.inj (Option.some.inj h)
      exact .stay .out ⟨rfl, rfl, rfl⟩
    | some i =>
      rw [hpath] at h
      dsimp only at h
      split_ifs at h
      · obtain ⟨rfl, rfl⟩ := Prod.mk.inj (Option.some.inj h)
        exact .stay .out ⟨rfl, rfl, rfl⟩
      · obtain ⟨rfl, rfl⟩ := Prod.mk.inj (Option.some.inj h)
        exact .stay .out ⟨rfl, rfl, rfl⟩
  | opening size o =>
    have hstep := openlock_step conf.locks .fetch b o
    dsimp only at h
    split at h
    all_goals
      next heq =>
      obtain ⟨rfl, rfl⟩ := Prod.mk.inj (Option.some.inj h)
      rw [heq] at hstep
      exact hstep
  | linkPath fd temp =>
    dsimp only at h
    cases hpath : b.path with
    | none =>
      rw [hpath] at h
      obtain ⟨rfl, rfl⟩ := Prod.mk.inj (Option.some.inj h)
      exact .stay (.locked fd) ⟨rfl, rfl, rfl⟩
    | some i =>
      rw [hpath] at h
      obtain ⟨rfl, rfl⟩ := Prod.mk.inj (Option.some.inj h)
      exact .stay (.locked fd) ⟨rfl, rfl, rfl⟩
  | close fd =>
    obtain ⟨rfl, rfl⟩ := Prod.mk.inj (Option.some.inj h)
    exact .close b rfl
  | rmlock =>
    obtain ⟨rfl, rfl⟩ := Prod.mk.inj (Option.some.inj h)
    exact .drop b
  | mail fd size => cases h
  | finished => cases h
  | _ =>
    obtain ⟨rfl, rfl⟩ := Prod.mk.inj (Option.some.inj h)
    exact .stay _ ⟨rfl, rfl, rfl⟩

end

end Fdm.Locking
