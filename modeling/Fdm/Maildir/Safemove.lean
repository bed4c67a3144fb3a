import Fdm.Lib.Directory
import Fdm.Lib.Runs
import Mathlib.Data.Int.Notation

/-!
# Safe moves

`safemove`, run by any number of processes at once. Each of them has a file of its own at its
`oldpath`, and moves it to its `newpath`, which others may want too; one step is one system call of
one process. A call works as it does in `Lib.Directory`, or fails with an error.
-/

namespace Fdm.Maildir

open Lib.Directory Lib.Runs

/-- A path: the `oldpath` of a process, or another. -/
inductive Path (ι ν : Type)
  | old (p : ι)
  | other (n : ν)
deriving DecidableEq, Repr

/-- A file: the message of a process, or one that was there before. -/
inductive File (ι φ : Type)
  | message (p : ι)
  | held (f : φ)
deriving DecidableEq, Repr

/-- The next system call of a process in `safemove`. -/
inductive Move
  | link
  | stat
  | rename
  | unlink (ret : ℤ) (errsave : Option Errno)
  | returned (ret : ℤ) (errno : Option Errno)
  /-- `fatal` has ended the process. -/
  | fatal
deriving DecidableEq, Repr

/-- An error of a call for a reason that the names do not show. -/
inductive Fault
  | xdev
  | other (n : ℕ)
deriving DecidableEq, Repr

def Fault.errno : Fault → Errno
  | xdev => .xdev
  | other n => .other n

/-- The names, and where each process is. -/
structure Moving (ι ν φ : Type) where
  dir : Dir (Path ι ν) (File ι φ)
  pc : ι → Move

variable {ι ν φ : Type} [DecidableEq ι] [DecidableEq ν] [DecidableEq φ]

/-- Each message is at the `oldpath` of its process. -/
def Moving.init (held : ν → Option φ) : Moving ι ν φ where
  dir := fun
    | .old p => some (.message p)
    | .other n => (held n).map .held
  pc := fun _ => .link

/-- A call gives a new directory or an error; with a fault it fails. -/
def call (fault : Option Fault) (result : Except Errno (Dir (Path ι ν) (File ι φ))) :
    Except Errno (Dir (Path ι ν) (File ι φ)) :=
  match fault with
  | some fault => .error fault.errno
  | none => result

/-- What a process does next in `safemove`. -/
def safemove (newpath : ν) (p : ι) (fault : Option Fault) (dir : Dir (Path ι ν) (File ι φ)) :
    Move → Option (Move × Dir (Path ι ν) (File ι φ))
  | .link =>
    match call fault (link (.old p) (.other newpath) dir) with
    | .ok dir => some (.unlink 0 none, dir)
    | .error .xdev => some (.stat, dir)
    | .error e => some (.unlink (-1) (some e), dir)
  | .stat =>
    match fault with
    | some fault => some (.unlink (-1) (some fault.errno), dir)
    | none =>
      if (dir (.other newpath)).isSome then some (.unlink (-1) (some .exist), dir)
      else some (.rename, dir)
  | .rename =>
    match call fault (rename (.old p) (.other newpath) dir) with
    | .ok dir => some (.unlink 0 none, dir)
    | .error e => some (.unlink (-1) (some e), dir)
  | .unlink ret errsave =>
    match call fault (unlink (.old p) dir) with
    | .ok dir => some (.returned ret errsave, dir)
    | .error .noent => some (.returned ret errsave, dir)
    | .error _ => some (.fatal, dir)
  | .returned _ _ => none
  | .fatal => none

/-- A system call of a process, and the fault that it meets if there is one. -/
def moveStep (newpath : ι → ν) (s : Moving ι ν φ) (a : ι × Option Fault) :
    Option (Moving ι ν φ) :=
  (safemove (newpath a.1) a.1 a.2 s.dir (s.pc a.1)).map fun (move, dir) =>
    { dir := dir, pc := Function.update s.pc a.1 move }

/-! ## What is asked -/

/-- A name other than the `oldpath` of a process. -/
def isOther : Path ι ν → Prop
  | .old _ => False
  | .other _ => True

/-- What `safemove` is to give, in a state `s'` that is reached from a state `s`: nothing at a
`newpath` is replaced, one caller at most gets the name, a caller has success just when its message
is there, and its `oldpath` has gone when it returns. -/
structure Safe (newpath : ι → ν) (s s' : Moving ι ν φ) : Prop where
  kept : Keeps isOther s.dir s'.dir
  one : ∀ p q e e', s'.pc p = .returned 0 e → s'.pc q = .returned 0 e' → newpath p = newpath q → p = q
  success : ∀ p ret e, s'.pc p = .returned ret e →
    (ret = 0 ↔ s'.dir (.other (newpath p)) = some (.message p))
  removed : ∀ p ret e, s'.pc p = .returned ret e → s'.dir (.old p) = none

/-- The condition on a step: nothing is at the `newpath` when it is renamed to. -/
def Clear (newpath : ι → ν) (s : Moving ι ν φ) (a : ι × Option Fault) : Prop :=
  s.pc a.1 = .rename → s.dir (.other (newpath a.1)) = none

instance (newpath : ι → ν) (s : Moving ι ν φ) (a : ι × Option Fault) :
    Decidable (Clear newpath s a) := by
  unfold Clear
  infer_instance

/-! ## One call -/

omit [DecidableEq φ] in
/-- Where the message of a process is: at its `oldpath` before the move, and then at its `newpath`
when the move has succeeded. -/
def Placed (newpath : ν) (p : ι) (dir : Dir (Path ι ν) (File ι φ)) : Move → Prop
  | .link | .stat | .rename =>
    dir (.old p) = some (.message p) ∧ dir (.other newpath) ≠ some (.message p)
  | .unlink ret _ => ret = 0 ↔ dir (.other newpath) = some (.message p)
  | .returned ret _ =>
    dir (.old p) = none ∧ (ret = 0 ↔ dir (.other newpath) = some (.message p))
  | .fatal => True

/-- A process changes nothing about the messages of others. -/
structure OnlyOwn (p : ι) (dir dir' : Dir (Path ι ν) (File ι φ)) : Prop where
  old : ∀ q ≠ p, dir' (.old q) = dir (.old q)
  message : ∀ q ≠ p, ∀ n, dir' (.other n) = some (.message q) ↔ dir (.other n) = some (.message q)
  kept : Keeps isOther dir dir'

section Calls

variable {newpath : ν} {p : ι} {dir dir' : Dir (Path ι ν) (File ι φ)}

omit [DecidableEq ν] [DecidableEq φ] [DecidableEq ι] in
theorem OnlyOwn.refl (p : ι) (dir : Dir (Path ι ν) (File ι φ)) : OnlyOwn p dir dir :=
  ⟨fun _ _ => rfl, fun _ _ _ => Iff.rfl, Keeps.refl _ _⟩

omit [DecidableEq φ] in
/-- The message of a process gets a name that is free. -/
theorem onlyOwn_named (p : ι) (h : dir (.other newpath) = none) :
    OnlyOwn p dir (Function.update dir (.other newpath) (some (.message p))) where
  old q _ := Function.update_of_ne (by simp) _ _
  message q hq n := by
    by_cases hn : n = newpath
    · subst hn
      simp [h, Ne.symm hq]
    · rw [Function.update_of_ne (by simpa using hn)]
  kept := Keeps.update_free _ h _

omit [DecidableEq φ] in
/-- The `oldpath` of a process goes. -/
theorem onlyOwn_removed (p : ι) (dir : Dir (Path ι ν) (File ι φ)) :
    OnlyOwn p dir (Function.update dir (.old p) none) where
  old q hq := Function.update_of_ne (by simpa using hq) _ _
  message q _ n := by rw [Function.update_of_ne (by simp)]
  kept := Keeps.update_none _ (by simp [isOther])

omit [DecidableEq ν] [DecidableEq φ] [DecidableEq ι] in
theorem OnlyOwn.trans {dir'' : Dir (Path ι ν) (File ι φ)} (h : OnlyOwn p dir dir')
    (h' : OnlyOwn p dir' dir'') : OnlyOwn p dir dir'' where
  old q hq := (h'.old q hq).trans (h.old q hq)
  message q hq n := (h'.message q hq n).trans (h.message q hq n)
  kept := h.kept.trans h'.kept

omit [DecidableEq ν] [DecidableEq φ] [DecidableEq ι] in
/-- What a process does leaves the messages of others where they are. -/
theorem Placed.frame {q : ι} {move : Move} (h : Placed newpath q dir move)
    (hown : OnlyOwn p dir dir') (hne : q ≠ p) : Placed newpath q dir' move := by
  have hold := hown.old q hne
  have hmessage := hown.message q hne newpath
  cases move with
  | fatal => trivial
  | link => simpa only [Placed, hold, hmessage, ne_eq] using h
  | stat => simpa only [Placed, hold, hmessage, ne_eq] using h
  | rename => simpa only [Placed, hold, hmessage, ne_eq] using h
  | unlink ret errsave => simpa only [Placed, hmessage] using h
  | returned ret errno => simpa only [Placed, hold, hmessage] using h

omit [DecidableEq ι] [DecidableEq ν] [DecidableEq φ] in
/-- A call that works meets no fault. -/
theorem call_ok {fault : Option Fault} {result : Except Errno (Dir (Path ι ν) (File ι φ))}
    (h : call fault result = .ok dir) : result = .ok dir := by
  cases fault with
  | none => exact h
  | some fault => cases h

omit [DecidableEq ι] [DecidableEq ν] [DecidableEq φ] in
/-- A call that fails because there is no such file meets no fault. -/
theorem call_noent {fault : Option Fault} {result : Except Errno (Dir (Path ι ν) (File ι φ))}
    (h : call fault result = .error .noent) : result = .error .noent := by
  cases fault with
  | none => exact h
  | some fault => cases fault <;> cases h

omit [DecidableEq ν] [DecidableEq φ] [DecidableEq ι] in
/-- A move that has failed leaves the message where it was. -/
theorem placed_failed (h : dir (.other newpath) ≠ some (.message p)) (errsave : Option Errno) :
    Placed newpath p dir (.unlink (-1) errsave) := by
  simpa [Placed] using h

/-- A call of a process, where a `rename` finds its `newpath` free. -/
theorem placed_safemove {fault : Option Fault} {move move' : Move}
    (h : Placed newpath p dir move) (hclear : move = .rename → dir (.other newpath) = none)
    (hs : safemove newpath p fault dir move = some (move', dir')) :
    Placed newpath p dir' move' ∧ OnlyOwn p dir dir' := by
  cases move with
  | link =>
    obtain ⟨hold, hnew⟩ := h
    unfold safemove at hs
    dsimp only at hs
    split at hs
    · next d hcall =>
      obtain ⟨rfl, rfl⟩ : .unlink 0 none = move' ∧ d = dir' := by simpa using hs
      obtain ⟨f, hf, hfree, rfl⟩ := link_ok (call_ok hcall)
      obtain rfl : .message p = f := Option.some_inj.mp (hold.symm.trans hf)
      exact ⟨by simp [Placed], onlyOwn_named p hfree⟩
    · obtain ⟨rfl, rfl⟩ : .stat = move' ∧ dir = dir' := by simpa using hs
      exact ⟨⟨hold, hnew⟩, OnlyOwn.refl _ _⟩
    · next e _ _ =>
      obtain ⟨rfl, rfl⟩ : .unlink (-1) (some e) = move' ∧ dir = dir' := by simpa using hs
      exact ⟨placed_failed hnew _, OnlyOwn.refl _ _⟩
  | stat =>
    obtain ⟨hold, hnew⟩ := h
    unfold safemove at hs
    dsimp only at hs
    split at hs
    · next fault =>
      obtain ⟨rfl, rfl⟩ : .unlink (-1) (some fault.errno) = move' ∧ dir = dir' := by
        simpa using hs
      exact ⟨placed_failed hnew _, OnlyOwn.refl _ _⟩
    · split_ifs at hs
      · obtain ⟨rfl, rfl⟩ : .unlink (-1) (some .exist) = move' ∧ dir = dir' := by simpa using hs
        exact ⟨placed_failed hnew _, OnlyOwn.refl _ _⟩
      · obtain ⟨rfl, rfl⟩ : .rename = move' ∧ dir = dir' := by simpa using hs
        exact ⟨⟨hold, hnew⟩, OnlyOwn.refl _ _⟩
  | rename =>
    obtain ⟨hold, hnew⟩ := h
    have hfree := hclear rfl
    unfold safemove at hs
    dsimp only at hs
    split at hs
    · next d hcall =>
      obtain ⟨rfl, rfl⟩ : .unlink 0 none = move' ∧ d = dir' := by simpa using hs
      obtain ⟨f, hf, hdone | ⟨-, rfl⟩⟩ := rename_ok (call_ok hcall)
      · simp [hfree] at hdone
      · obtain rfl : .message p = f := Option.some_inj.mp (hold.symm.trans hf)
        exact ⟨by simp [Placed], (onlyOwn_named p hfree).trans (onlyOwn_removed p _)⟩
    · next e _ =>
      obtain ⟨rfl, rfl⟩ : .unlink (-1) (some e) = move' ∧ dir = dir' := by simpa using hs
      exact ⟨placed_failed hnew _, OnlyOwn.refl _ _⟩
  | unlink ret errsave =>
    unfold safemove at hs
    dsimp only at hs
    split at hs
    · next d hcall =>
      obtain ⟨rfl, rfl⟩ : .returned ret errsave = move' ∧ d = dir' := by simpa using hs
      obtain ⟨-, rfl⟩ := unlink_ok (call_ok hcall)
      refine ⟨⟨by simp, ?_⟩, onlyOwn_removed p dir⟩
      rw [Function.update_of_ne (by simp)]
      exact h
    · next hcall =>
      obtain ⟨rfl, rfl⟩ : .returned ret errsave = move' ∧ dir = dir' := by simpa using hs
      exact ⟨⟨(unlink_error (call_noent hcall)).1, h⟩, OnlyOwn.refl _ _⟩
    · obtain ⟨rfl, rfl⟩ : .fatal = move' ∧ dir = dir' := by simpa using hs
      exact ⟨trivial, OnlyOwn.refl _ _⟩
  | returned ret errno => cases hs
  | fatal => cases hs

end Calls

/-! ## Runs -/

section Runs

variable {newpath : ι → ν} {s s' : Moving ι ν φ}

/-- One step, where a `rename` finds its `newpath` free. -/
theorem placed_moveStep {a : ι × Option Fault} (h : ∀ p, Placed (newpath p) p s.dir (s.pc p))
    (hclear : Clear newpath s a) (hs : moveStep newpath s a = some s') :
    (∀ p, Placed (newpath p) p s'.dir (s'.pc p)) ∧ Keeps isOther s.dir s'.dir := by
  obtain ⟨⟨move, dir⟩, hcall, rfl⟩ := Option.map_eq_some_iff.mp hs
  obtain ⟨hplaced, hown⟩ := placed_safemove (h a.1) hclear hcall
  refine ⟨fun q => ?_, hown.kept⟩
  by_cases hq : q = a.1
  · subst hq
    simpa using hplaced
  · simpa [Function.update_of_ne hq] using (h q).frame hown hq

omit [DecidableEq ι] [DecidableEq ν] [DecidableEq φ] in
theorem placed_init (held : ν → Option φ) (newpath : ι → ν) (p : ι) :
    Placed (newpath p) p (Moving.init held).dir ((Moving.init held : Moving ι ν φ).pc p) := by
  refine ⟨rfl, ?_⟩
  show (held (newpath p)).map File.held ≠ some (.message p)
  cases held (newpath p) <;> simp

/-- In a run in which no `rename` finds something at its `newpath`, `safemove` is safe between any
two states. -/
theorem safemove_safe {held : ν → Option φ}
    (h : Reach (moveStep newpath) (Clear newpath) (Moving.init held) s)
    (h' : Reach (moveStep newpath) (Clear newpath) s s') : Safe newpath s s' := by
  have hplaced : ∀ p, Placed (newpath p) p s.dir (s.pc p) :=
    h.invariant (I := fun t => ∀ p, Placed (newpath p) p t.dir (t.pc p))
      (placed_init held newpath) fun _ _ _ hI hg hs => (placed_moveStep hI hg hs).1
  have hrun : (∀ p, Placed (newpath p) p s'.dir (s'.pc p)) ∧ Keeps isOther s.dir s'.dir := by
    refine h'.invariant (I := fun t => (∀ p, Placed (newpath p) p t.dir (t.pc p)) ∧
      Keeps isOther s.dir t.dir) ⟨hplaced, Keeps.refl _ _⟩ fun t a t' hI hg hs => ?_
    have hstep := placed_moveStep hI.1 hg hs
    exact ⟨hstep.1, hI.2.trans hstep.2⟩
  have hreturned : ∀ p ret e, s'.pc p = .returned ret e → s'.dir (.old p) = none ∧
      (ret = 0 ↔ s'.dir (.other (newpath p)) = some (.message p)) := by
    intro p ret e hpc
    have hp := hrun.1 p
    rwa [hpc] at hp
  refine ⟨hrun.2, fun p q e e' hp hq hsame => ?_, fun p ret e hp => (hreturned p ret e hp).2,
    fun p ret e hp => (hreturned p ret e hp).1⟩
  have hmp := (hreturned p 0 e hp).2.mp rfl
  have hmq := (hreturned q 0 e' hq).2.mp rfl
  rw [hsame] at hmp
  simpa using hmp.symm.trans hmq

end Runs

/-- Two processes want one name, on a file system without links. -/
def bothStat : List (Bool × Option Fault) :=
  [(false, some .xdev), (true, some .xdev), (false, none), (true, none), (false, none)]

/-- The first of them has moved its message before the second one looks. -/
def inTurn : List (Bool × Option Fault) :=
  [(false, some .xdev), (false, none), (false, none), (false, none), (true, some .xdev),
    (true, none), (true, none)]

/-- Nothing is at any other path. -/
def nothingHeld : Unit → Option Empty := fun _ => none

/-- Both want the same name. -/
def sameName : Bool → Unit := fun _ => ()

theorem safemove_safe_inTurn :
    (exec (guarded (moveStep sameName) fun s a => decide (Clear sameName s a))
        (Moving.init nothingHeld) inTurn).isSome = true ∧
      ∀ s, exec (guarded (moveStep sameName) fun s a => decide (Clear sameName s a))
        (Moving.init nothingHeld) inTurn = some s → Safe sameName (Moving.init nothingHeld) s :=
  ⟨by decide, fun _ hs =>
    safemove_safe .refl (reach_of_execGuarded (fun _ _ hg => of_decide_eq_true hg) hs)⟩

/-- The second `rename` replaces the message that the first one has moved. -/
theorem bothStat_replaced : ∃ s s', exec (moveStep sameName) (Moving.init nothingHeld) bothStat =
    some s ∧ exec (moveStep sameName) s [(true, none)] = some s' ∧ ¬ Safe sameName s s' := by
  refine ⟨_, _, rfl, rfl, fun hsafe => ?_⟩
  have hkept := hsafe.kept (.other ()) (.message false) trivial (by decide)
  revert hkept
  decide

end Fdm.Maildir
