import Mathlib.Data.List.Basic
import Mathlib.Logic.Function.Basic

/-!
# Directories

The calls on names of a POSIX file system, each of them atomic: `link`, `rename`, `unlink` and
`open` with `O_EXCL`. A directory says which file a name is of; a call gives the new directory, or
an error and leaves it as it is.

* `Keeps` says that no name that is taken gets another file; all the calls but `unlink` and a
  `rename` to a name that is taken keep the names so.
-/

namespace Lib.Directory

/-- The file of each name. -/
abbrev Dir (ν φ : Type*) := ν → Option φ

/-- `errno`, as far as it is looked at. -/
inductive Errno
  | noent
  | exist
  | xdev
  | other (n : ℕ)
deriving DecidableEq, Repr

variable {ν φ : Type*} [DecidableEq ν]

/-- `link`: a second name for a file. -/
def link (old new : ν) (d : Dir ν φ) : Except Errno (Dir ν φ) :=
  match d old with
  | none => .error .noent
  | some f => if (d new).isSome then .error .exist else .ok (Function.update d new (some f))

/-- `rename`: it replaces what is there, and does nothing with two names of one file. -/
def rename [DecidableEq φ] (old new : ν) (d : Dir ν φ) : Except Errno (Dir ν φ) :=
  match d old with
  | none => .error .noent
  | some f =>
    if d new = some f then .ok d
    else .ok (Function.update (Function.update d new (some f)) old none)

/-- `unlink`. -/
def unlink (name : ν) (d : Dir ν φ) : Except Errno (Dir ν φ) :=
  if (d name).isSome then .ok (Function.update d name none) else .error .noent

/-- `open` with `O_CREAT` and `O_EXCL`. -/
def create (name : ν) (f : φ) (d : Dir ν φ) : Except Errno (Dir ν φ) :=
  if (d name).isSome then .error .exist else .ok (Function.update d name (some f))

/-! ## What the calls do -/

/-- `link` gives a file another name, which no file had. -/
theorem link_ok {old new : ν} {d d' : Dir ν φ} (h : link old new d = .ok d') :
    ∃ f, d old = some f ∧ d new = none ∧ d' = Function.update d new (some f) := by
  unfold link at h
  split at h
  · cases h
  · next f hold =>
    split_ifs at h with hnew
    refine ⟨f, hold, by simpa using hnew, ?_⟩
    simpa using h.symm

/-- `rename` takes the name of a file, and replaces what had the new one. -/
theorem rename_ok [DecidableEq φ] {old new : ν} {d d' : Dir ν φ} (h : rename old new d = .ok d') :
    ∃ f, d old = some f ∧ (d new = some f ∧ d' = d ∨
      d new ≠ some f ∧ d' = Function.update (Function.update d new (some f)) old none) := by
  unfold rename at h
  split at h
  · cases h
  · next f hold =>
    split_ifs at h with hnew
    · exact ⟨f, hold, .inl ⟨hnew, by simpa using h.symm⟩⟩
    · exact ⟨f, hold, .inr ⟨hnew, by simpa using h.symm⟩⟩

/-- `unlink` removes a name. -/
theorem unlink_ok {name : ν} {d d' : Dir ν φ} (h : unlink name d = .ok d') :
    (d name).isSome ∧ d' = Function.update d name none := by
  unfold unlink at h
  split_ifs at h with hname
  exact ⟨hname, by simpa using h.symm⟩

/-- It fails only where there is none. -/
theorem unlink_error {name : ν} {d : Dir ν φ} {e : Errno} (h : unlink name d = .error e) :
    d name = none ∧ e = .noent := by
  unfold unlink at h
  split_ifs at h with hname
  exact ⟨by simpa using hname, by simpa using h.symm⟩

/-- A file is made under a name that no file had. -/
theorem create_ok {name : ν} {f : φ} {d d' : Dir ν φ} (h : create name f d = .ok d') :
    d name = none ∧ d' = Function.update d name (some f) := by
  unfold create at h
  split_ifs at h with hname
  exact ⟨by simpa using hname, by simpa using h.symm⟩

/-! ## Names that keep their files -/

/-- The names of a set that are taken keep their files. -/
def Keeps (N : ν → Prop) (d d' : Dir ν φ) : Prop := ∀ n f, N n → d n = some f → d' n = some f

omit [DecidableEq ν] in
theorem Keeps.refl (N : ν → Prop) (d : Dir ν φ) : Keeps N d d := fun _ _ _ h => h

omit [DecidableEq ν] in
theorem Keeps.trans {N : ν → Prop} {d d' d'' : Dir ν φ} (h : Keeps N d d') (h' : Keeps N d' d'') :
    Keeps N d d'' := fun n f hN hf => h' n f hN (h n f hN hf)

/-- A file at a free name replaces nothing. -/
theorem Keeps.update_free (N : ν → Prop) {d : Dir ν φ} {name : ν} (h : d name = none) (f : φ) :
    Keeps N d (Function.update d name (some f)) := by
  intro n g _ hg
  have hne : n ≠ name := by
    rintro rfl
    simp [h] at hg
  rwa [Function.update_of_ne hne]

/-- A name outside the set is removed. -/
theorem Keeps.update_none {N : ν → Prop} (d : Dir ν φ) {name : ν} (h : ¬ N name) :
    Keeps N d (Function.update d name none) := by
  intro n g hN hg
  have hne : n ≠ name := by
    rintro rfl
    exact h hN
  rwa [Function.update_of_ne hne]

end Lib.Directory
