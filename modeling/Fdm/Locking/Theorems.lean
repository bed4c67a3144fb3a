import Fdm.Locking.Invariant

/-!
# What the locks are worth

* `none_lost`: with any of the locks no delivered mail is lost, in the runs that meet
  `guard`;
* `truncated_unseen`, `written_to_old_file`: what happens in runs that do not.
-/

namespace Fdm.Locking

section
variable {ο ι : Type} [DecidableEq ο] [DecidableEq ι] {conf : Conf ι} {s : Sys ο ι}

/-- What the file at the path holds. -/
def Disk.atPath (b : Disk ο ι) : List (Piece ο ι) :=
  match b.path with
  | none => []
  | some i => b.content i

/-- Each mail that was delivered is in the file at the path, unless the fetcher has committed
it as dropped; for a moment of the replacement there is no such file. -/
def NoneLost (conf : Conf ι) (s : Sys ο ι) : Prop :=
  (∀ fd temp, s.fetch ≠ .linkPath fd temp) → ∀ d, s.deliver d = .finished true →
    .new d ∈ s.dropped ∨ ∀ j < conf.pieces d, (.new d, j) ∈ s.disk.atPath

/-- In every run whose calls meet the guard, no delivered mail is lost. -/
theorem none_lost {old : Option (List (ο × ℕ))}
    (hlocks : conf.locks.dotlock = true ∨ conf.locks.flock = true ∨ conf.locks.fcntl = true)
    (h : Lib.Runs.Reach (step conf) (guard conf) (begin old) s) : NoneLost conf s := by
  have hsafe : Safe conf s :=
    h.invariant (safe_begin conf old) fun _ _ _ hs hguard hstep => hs.step hlocks hguard hstep
  intro hwindow d hd
  by_cases hdropped : .new d ∈ s.dropped
  · exact Or.inl hdropped
  · right
    intro j hj
    have hwritten : j < (s.deliver d).written (conf.pieces d) := by
      rw [hd]
      exact hj
    rcases hsafe.delivered d j hwritten with hgone | ⟨i, hi, hmem⟩
    · exact absurd hgone hdropped
    · have hpath : s.disk.path = some i := by
        rw [← hi]
        unfold current
        split
        · next fd temp hfetch => exact absurd hfetch (hwindow fd temp)
        · rfl
      rw [Disk.atPath, hpath]
      exact hmem

end

/-! ## Three runs -/

/-- One deliverer, whose mail is written in one piece. -/
def sampleConf (dotlock : Bool) : Conf Unit where
  locks := { fcntl := false, flock := true, dotlock := dotlock }
  pieces _ := 1

/-- Two old mails. -/
def sampleBegin : Sys Bool Unit := begin (some [(false, 0), (true, 0)])

/-- `openlock` in the fetcher, then the commits. -/
def fetchAll (kept : List (MailId Bool Unit)) : List (Act Bool Unit) :=
  [.fetch, .fetch, .fetch, .fetch, .save kept]

/-- A delivery, up to the `open` of the file that exists already, and what is left of it. -/
def openFile : List (Act Bool Unit) := List.replicate 6 (.deliver ())

def writeMail : List (Act Bool Unit) := List.replicate 6 (.deliver ())

/-- `ftruncate`, and giving up the locks. -/
def truncateFile : List (Act Bool Unit) := List.replicate 3 .fetch

/-- The replacement, and giving up the locks. -/
def replaceFile : List (Act Bool Unit) := List.replicate 8 .fetch

/-- The guard with a lock file, as a test for the sample runs. -/
def meetsGuard (s : Sys Bool Unit) : Act Bool Unit → Bool
  | .save _ =>
    match s.fetch with
    | .mail fd size => (s.disk.content fd).length = size
    | _ => true
  | _ => true

theorem guard_of_meetsGuard (s : Sys Bool Unit) (a : Act Bool Unit) (h : meetsGuard s a = true) :
    guard (sampleConf true) s a := by
  cases a with
  | save kept =>
    intro fd size hfetch _
    simpa [meetsGuard, hfetch] using h
  | deliver d => exact nofun
  | _ => trivial

theorem oneByOne_runs :
    (Lib.Runs.exec (Lib.Runs.guarded (step (sampleConf true)) meetsGuard) sampleBegin
      (.fetch :: fetchAll [] ++ truncateFile ++ openFile ++ writeMail)).isSome = true := by
  rfl

theorem none_lost_oneByOne :
    ∃ s : Sys Bool Unit, s.fetch = .finished ∧ s.deliver () = .finished true ∧
      NoneLost (sampleConf true) s :=
  ⟨_, rfl, rfl, none_lost (by decide)
    (Lib.Runs.reach_getGuarded guard_of_meetsGuard oneByOne_runs)⟩

theorem truncated_runs :
    (Lib.Runs.exec (step (sampleConf true)) sampleBegin
      (.fetch :: openFile ++ writeMail ++ fetchAll [] ++ truncateFile)).isSome = true := by
  rfl

/-- A mail that is delivered between `stat` and `openlock` is truncated unseen. -/
theorem truncated_unseen :
    ∃ s, Lib.Runs.Reach (step (sampleConf true)) Lib.Runs.anyStep sampleBegin s ∧
      s.fetch = .finished ∧ s.deliver () = .finished true ∧ ¬ NoneLost (sampleConf true) s := by
  refine ⟨_, Lib.Runs.reach_get truncated_runs, rfl, rfl, fun h => ?_⟩
  rcases h (by rw [show Sys.fetch _ = .finished by decide]; exact nofun) ()
    (by decide) with hdropped | hpresent
  · exact absurd hdropped (by decide)
  · exact absurd (hpresent 0 (by decide)) (by decide)

theorem replaced_runs :
    (Lib.Runs.exec (step (sampleConf false)) sampleBegin
      (openFile ++ .fetch :: fetchAll [.old true] ++ replaceFile ++ writeMail)).isSome = true := by
  rfl

/-- Without a lock file, a mail is written to the file that was replaced when the deliverer
had opened it already. -/
theorem written_to_old_file :
    ∃ s, Lib.Runs.Reach (step (sampleConf false)) Lib.Runs.anyStep sampleBegin s ∧
      s.fetch = .finished ∧ s.deliver () = .finished true ∧ ¬ NoneLost (sampleConf false) s := by
  refine ⟨_, Lib.Runs.reach_get replaced_runs, rfl, rfl, fun h => ?_⟩
  rcases h (by rw [show Sys.fetch _ = .finished by decide]; exact nofun) ()
    (by decide) with hdropped | hpresent
  · exact absurd hdropped (by decide)
  · exact absurd (hpresent 0 (by decide)) (by decide)

end Fdm.Locking
