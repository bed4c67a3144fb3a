import Fdm.Locking.Defs

/-!
# Who has the locks

How far each process has got with its locks (`Phase`), and what the lock tables say of it
(`Locked`). Two processes that have all their locks do not have the same file open
(`Locked.exclusive`), and with a lock file there is one such process at a time
(`Locked.alone`).
-/

namespace Fdm.Locking

open Lib.Owners

/-- How many of its locks a process has: the lock file first, then those on the file that it
has opened. -/
inductive Phase
  | out
  | dot
  | opened (fd : ℕ)
  | flocked (fd : ℕ)
  | locked (fd : ℕ)
deriving DecidableEq, Repr

/-- The file that is open. -/
def Phase.fd : Phase → Option ℕ
  | .out | .dot => none
  | .opened fd | .flocked fd | .locked fd => some fd

def Opening.phase : Opening → Phase
  | .mklock _ => .out
  | .open _ => .dot
  | .flock fd => .opened fd
  | .fcntl fd => .flocked fd
  | .close fd => .opened fd
  | .rmlock _ => .dot

def Opened.phase : Opened → Phase
  | .go o => o.phase
  | .got fd => .locked fd
  | .failed _ => .out

def Deliver.phase : Deliver → Phase
  | .opening o => o.phase
  | .write fd _ => .locked fd
  | .close fd _ => .locked fd
  | .rmlock _ => .dot
  | .stat | .sleep | .finished _ => .out

def Fetch.phase {μ : Type} : Fetch μ → Phase
  | .opening _ o => o.phase
  | .mail fd _ | .truncate fd | .temp fd _ _ | .linkSaved fd _ | .unlinkPath fd _
  | .linkPath fd _ | .unlinkTemp fd | .unlinkSaved fd | .close fd => .locked fd
  | .rmlock => .dot
  | .stat | .sleep _ | .finished => .out

section
variable {ο ι : Type} {locks : LockTypes} {p q : Proc ι} {phases : Proc ι → Phase}
  {b b' : Disk ο ι} {ph ph' : Phase} {fd : ℕ}

/-- The phase of a process. -/
def phase (s : Sys ο ι) : Proc ι → Phase
  | .fetch => s.fetch.phase
  | .deliver d => (s.deliver d).phase

/-- What the lock tables say of a process. -/
structure Owns (locks : LockTypes) (p : Proc ι) (ph : Phase) (b : Disk ο ι) : Prop where
  dotlock : locks.dotlock = true → ph ≠ .out → b.dotlock = true
  flock : locks.flock = true → ∀ fd, ph = .flocked fd ∨ ph = .locked fd → b.flock fd = some p
  fcntl : locks.fcntl = true → ∀ fd, ph = .locked fd → b.fcntl fd = some p

/-- The lock tables know of all processes, and one of them at most has the lock file. -/
structure Locked (locks : LockTypes) (phases : Proc ι → Phase) (b : Disk ο ι) : Prop where
  owns : ∀ p, Owns locks p (phases p) b
  alone : locks.dotlock = true → ∀ p q, phases p ≠ .out → phases q ≠ .out → p = q

/-- Without a lock on a file there is the lock file only. -/
theorem Owns.of_dotlock (hdot : locks.dotlock = true → ph ≠ .out → b.dotlock = true)
    (hph : ∀ fd, ph ≠ .flocked fd ∧ ph ≠ .locked fd) : Owns locks p ph b where
  dotlock := hdot
  flock _ fd hp := by
    rcases hp with hp | hp
    · exact absurd hp (hph fd).1
    · exact absurd hp (hph fd).2
  fcntl _ fd hp := absurd hp (hph fd).2

/-- Two processes with all their locks have different files open. -/
theorem Locked.exclusive (h : Locked locks phases b)
    (hlocks : locks.dotlock = true ∨ locks.flock = true ∨ locks.fcntl = true)
    (hp : phases p = .locked fd) (hq : phases q = .locked fd) : p = q := by
  rcases hlocks with hdot | hflock | hfcntl
  · exact h.alone hdot p q (by rw [hp]; exact nofun) (by rw [hq]; exact nofun)
  · have hpo := (h.owns p).flock hflock fd (Or.inr hp)
    have hqo := (h.owns q).flock hflock fd (Or.inr hq)
    rw [hpo, Option.some_inj] at hqo
    exact hqo
  · have hpo := (h.owns p).fcntl hfcntl fd hp
    have hqo := (h.owns q).fcntl hfcntl fd hq
    rw [hpo, Option.some_inj] at hqo
    exact hqo

/-! ## One step -/

/-- The lock tables are the same. -/
structure SameLocks (b b' : Disk ο ι) : Prop where
  dotlock : b'.dotlock = b.dotlock
  flock : b'.flock = b.flock
  fcntl : b'.fcntl = b.fcntl

theorem SameLocks.owns (hsame : SameLocks b b') (h : Owns locks p ph b) : Owns locks p ph b' where
  dotlock := by
    rw [hsame.dotlock]
    exact h.dotlock
  flock := by
    rw [hsame.flock]
    exact h.flock
  fcntl := by
    rw [hsame.fcntl]
    exact h.fcntl

theorem mklock_some (h : mklock locks b = some b') :
    (locks.dotlock = true → b.dotlock = false ∧ b'.dotlock = true) ∧
      b'.flock = b.flock ∧ b'.fcntl = b.fcntl := by
  unfold mklock at h
  cases hl : locks.dotlock with
  | false =>
    simp only [hl, Bool.not_false, if_true] at h
    obtain rfl := Option.some.inj h
    exact ⟨nofun, rfl, rfl⟩
  | true =>
    cases hb : b.dotlock with
    | false =>
      simp [hl, hb] at h
      rw [← h]
      exact ⟨fun _ => ⟨rfl, rfl⟩, rfl, rfl⟩
    | true => simp [hl, hb] at h

/-- `flock` gives `p` the lock, and takes it from nobody. -/
theorem lockFlock_some (h : lockFlock locks p fd b = some b') :
    b'.dotlock = b.dotlock ∧ b'.fcntl = b.fcntl ∧
      (locks.flock = true → b'.flock fd = some p) ∧
      ∀ q i, b.flock i = some q → b'.flock i = some q := by
  unfold lockFlock at h
  cases hl : locks.flock with
  | false =>
    simp only [hl, Bool.false_eq_true, if_false] at h
    obtain rfl := Option.some.inj h
    exact ⟨rfl, rfl, nofun, fun _ _ hi => hi⟩
  | true =>
    simp only [hl, if_true] at h
    obtain ⟨owner, howner, rfl⟩ := Option.map_eq_some_iff.mp h
    exact ⟨rfl, rfl, fun _ => acquire_self howner, fun _ _ hi => acquire_keep howner hi⟩

theorem lockFcntl_some (h : lockFcntl locks p fd b = some b') :
    b'.dotlock = b.dotlock ∧ b'.flock = b.flock ∧
      (locks.fcntl = true → b'.fcntl fd = some p) ∧
      ∀ q i, b.fcntl i = some q → b'.fcntl i = some q := by
  unfold lockFcntl at h
  cases hl : locks.fcntl with
  | false =>
    simp only [hl, Bool.false_eq_true, if_false] at h
    obtain rfl := Option.some.inj h
    exact ⟨rfl, rfl, nofun, fun _ _ hi => hi⟩
  | true =>
    simp only [hl, if_true] at h
    obtain ⟨owner, howner, rfl⟩ := Option.map_eq_some_iff.mp h
    exact ⟨rfl, rfl, fun _ => acquire_self howner, fun _ _ hi => acquire_keep howner hi⟩

theorem dotlock_rmlock (hl : locks.dotlock = false) : rmlock locks b = b := by
  rw [rmlock, hl]
  rfl

variable [DecidableEq ι]

/-- What a call may do to the locks of the process that makes it. -/
inductive LockStep (locks : LockTypes) (p : Proc ι) :
    Phase → Disk ο ι → Phase → Disk ο ι → Prop
  | take {b b' : Disk ο ι} (h : mklock locks b = some b') : LockStep locks p .out b .dot b'
  | drop (b : Disk ο ι) : LockStep locks p .dot b .out (rmlock locks b)
  | open {b b' : Disk ο ι} (fd : ℕ) (h : SameLocks b b') :
    LockStep locks p .dot b (.opened fd) b'
  | flock {b b' : Disk ο ι} {fd : ℕ} (h : lockFlock locks p fd b = some b') :
    LockStep locks p (.opened fd) b (.flocked fd) b'
  | fcntl {b b' : Disk ο ι} {fd : ℕ} (h : lockFcntl locks p fd b = some b') :
    LockStep locks p (.flocked fd) b (.locked fd) b'
  | back (b : Disk ο ι) (fd : ℕ) : LockStep locks p (.flocked fd) b (.opened fd) b
  | close (b : Disk ο ι) {ph : Phase} {fd : ℕ} (h : ph.fd = some fd) :
    LockStep locks p ph b .dot (close p fd b)
  | stay {b b' : Disk ο ι} (ph : Phase) (h : SameLocks b b') : LockStep locks p ph b ph b'

/-- A process knows its own locks. -/
theorem LockStep.owns (hstep : LockStep locks p ph b ph' b') (h : Owns locks p ph b) :
    Owns locks p ph' b' := by
  cases hstep with
  | take hm =>
    obtain ⟨hdot, -, -⟩ := mklock_some hm
    exact .of_dotlock (fun hl _ => (hdot hl).2) fun _ => ⟨nofun, nofun⟩
  | drop => exact .of_dotlock (fun _ hne => absurd rfl hne) fun _ => ⟨nofun, nofun⟩
  | «open» fd hsame =>
    refine .of_dotlock (fun hl _ => ?_) fun _ => ⟨nofun, nofun⟩
    rw [hsame.dotlock]
    exact h.dotlock hl nofun
  | flock hf =>
    obtain ⟨hdot, -, hmine, -⟩ := lockFlock_some hf
    refine ⟨fun hl _ => ?_, fun hl i hp => ?_, nofun⟩
    · rw [hdot]
      exact h.dotlock hl nofun
    · rcases hp with hp | hp
      · rw [← Phase.flocked.inj hp]
        exact hmine hl
      · cases hp
  | fcntl hf =>
    obtain ⟨hdot, hflock, hmine, -⟩ := lockFcntl_some hf
    refine ⟨fun hl _ => ?_, fun hl i hp => ?_, fun hl i hp => ?_⟩
    · rw [hdot]
      exact h.dotlock hl nofun
    · rcases hp with hp | hp
      · cases hp
      · rw [hflock, ← Phase.locked.inj hp]
        exact h.flock hl _ (Or.inl rfl)
    · rw [← Phase.locked.inj hp]
      exact hmine hl
  | back _ fd => exact .of_dotlock (fun hl _ => h.dotlock hl nofun) fun _ => ⟨nofun, nofun⟩
  | close _ hfd =>
    refine .of_dotlock (fun hl _ => ?_) fun _ => ⟨nofun, nofun⟩
    refine h.dotlock hl ?_
    rintro rfl
    cases hfd
  | stay _ hsame => exact hsame.owns h

/-- The locks of another process, which is out if `p` has the lock file. -/
theorem LockStep.others {phq : Phase} (hstep : LockStep locks p ph b ph' b') (hq : q ≠ p)
    (hout : locks.dotlock = true → ph ≠ .out → phq = .out) (h : Owns locks q phq b) :
    Owns locks q phq b' := by
  cases hstep with
  | take hm =>
    obtain ⟨hdot, hflock, hfcntl⟩ := mklock_some hm
    refine ⟨fun hl _ => (hdot hl).2, ?_, ?_⟩
    · rw [hflock]
      exact h.flock
    · rw [hfcntl]
      exact h.fcntl
  | drop =>
    cases hl : locks.dotlock with
    | false =>
      rw [dotlock_rmlock hl]
      exact h
    | true =>
      rw [hout hl nofun]
      exact .of_dotlock (fun _ hne => absurd rfl hne) fun _ => ⟨nofun, nofun⟩
  | «open» fd hsame => exact hsame.owns h
  | flock hf =>
    obtain ⟨hdot, hfcntl, -, hkeep⟩ := lockFlock_some hf
    refine ⟨?_, fun hl i hp => hkeep q i (h.flock hl i hp), ?_⟩
    · rw [hdot]
      exact h.dotlock
    · rw [hfcntl]
      exact h.fcntl
  | fcntl hf =>
    obtain ⟨hdot, hflock, -, hkeep⟩ := lockFcntl_some hf
    refine ⟨?_, ?_, fun hl i hp => hkeep q i (h.fcntl hl i hp)⟩
    · rw [hdot]
      exact h.dotlock
    · rw [hflock]
      exact h.flock
  | back _ fd => exact h
  | close _ hfd =>
    exact ⟨h.dotlock, fun hl i hp => release_keep hq (h.flock hl i hp),
      fun hl i hp => release_keep hq (h.fcntl hl i hp)⟩
  | stay _ hsame => exact hsame.owns h

/-- Who is not out any more has found no lock file. -/
theorem LockStep.enters (hstep : LockStep locks p ph b ph' b') (hl : locks.dotlock = true)
    (hout : ph = .out) (hin : ph' ≠ .out) : b.dotlock = false := by
  cases hstep with
  | take hm => exact ((mklock_some hm).1 hl).1
  | drop => cases hout
  | close _ hfd =>
    rw [hout] at hfd
    cases hfd
  | stay _ _ => exact absurd hout hin
  | _ => cases hout

/-- A step of one process keeps what the tables say of all. -/
theorem Locked.step (h : Locked locks phases b) (hp : phases p = ph)
    (hstep : LockStep locks p ph b ph' b') :
    Locked locks (Function.update phases p ph') b' where
  owns q := by
    by_cases hq : q = p
    · rw [hq, Function.update_self]
      refine hstep.owns ?_
      rw [← hp]
      exact h.owns p
    · rw [Function.update_of_ne hq]
      refine hstep.others hq (fun hl hin => ?_) (h.owns q)
      by_contra hne
      exact hq (h.alone hl q p hne (by rwa [hp]))
  alone hl q r hqin hrin := by
    -- nobody else is in when `p` enters
    have hentry : ∀ q, q ≠ p → phases q ≠ .out → ph' ≠ .out → False := by
      intro q hq hqin hin
      by_cases hout : ph = .out
      · have hfree := hstep.enters hl hout hin
        have hheld := (h.owns q).dotlock hl hqin
        rw [hfree] at hheld
        cases hheld
      · exact hq (h.alone hl q p hqin (by rwa [hp]))
    by_cases hq : q = p
    · by_cases hr : r = p
      · rw [hq, hr]
      · rw [hq, Function.update_self] at hqin
        rw [Function.update_of_ne hr] at hrin
        exact absurd (hentry r hr hrin hqin) id
    · rw [Function.update_of_ne hq] at hqin
      by_cases hr : r = p
      · rw [hr, Function.update_self] at hrin
        exact absurd (hentry q hq hqin hrin) id
      · rw [Function.update_of_ne hr] at hrin
        exact h.alone hl q r hqin hrin

end

end Fdm.Locking
