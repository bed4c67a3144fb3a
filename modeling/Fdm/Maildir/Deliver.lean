import Fdm.Lib.Scanf
import Fdm.Maildir.Safemove

/-!
# Delivering to a maildir

`deliver_maildir_deliver`: a file with a new name in `tmp`, the mail written to it, and a
`safemove` to `new`; a name that is taken in either directory is given up for the next one. One
step is one system call. A delivery is to put one complete copy of the mail into `new`, or to leave
both directories as they were.
-/

namespace Fdm.Maildir

open Lib.Directory Lib.Runs
open Lib.Scanf (decimal)

/-- The name of a file in a maildir. -/
abbrev Name := List Char

/-- The settings that are read. -/
structure Conf where
  /-- What `replacepath` gives. -/
  path : Option (List Char)
  hostname : List Char
  pid : ℕ
  fileGroup : Option ℕ := none
  maxPathLen : ℕ := 1024
  maxHostNameLen : ℕ := 256

/-- `deliver_maildir_host`. -/
def Conf.host (conf : Conf) : List Char :=
  if conf.hostname.all fun ch => ch ≠ '/' ∧ ch ≠ ':' then conf.hostname
  else
    (conf.hostname.flatMap fun ch =>
      if ch = '/' then ['\\', '0', '5', '7']
      else if ch = ':' then ['\\', '0', '7', '2']
      else [ch]).take (conf.maxHostNameLen - 1)

/-- `%ld`. -/
def showLong : ℤ → List Char
  | .ofNat n => decimal n
  | .negSucc n => '-' :: decimal (n + 1)

/-- The name that is tried at some time, with the number of those that have been. -/
def Conf.name (conf : Conf) (time : ℤ) (delivered : ℕ) : Name :=
  showLong time ++ ['.'] ++ decimal conf.pid ++ ['_'] ++ decimal delivered ++ ['.'] ++
    conf.host

/-- `ppath` with a directory of the maildir; `none` when the path is too long. -/
def Conf.ppath (conf : Conf) (sub : List Char) (name : Name) : Option (List Char) :=
  let path := conf.path.getD [] ++ sub ++ name
  if conf.maxPathLen ≤ path.length then none else some path

/-- `"/tmp/"` -/
def tmpDir : List Char := ['/', 't', 'm', 'p', '/']

/-- `"/new/"` -/
def newDir : List Char := ['/', 'n', 'e', 'w', '/']

/-- What comes of a system call. -/
structure Result where
  fault : Option Fault := none
  /-- What `time` returns, where it is called. -/
  time : ℤ := 0
  /-- What `write` returns. -/
  count : ℕ := 0

/-- Where a delivery is. -/
inductive Place
  | start
  | create
  | chown
  | write
  | fsync
  | moving (move : Move)
  | success
  | failure
  /-- `fatal` has ended the process. -/
  | fatal
deriving DecidableEq, Repr

/-- The state of a delivery. The `oldpath` of a name is its path in `tmp`, and the other path with
it the one in `new`. -/
structure Delivering (φ : Type) where
  pc : Place := .start
  dir : Dir (Path Name Name) (File Name φ)
  delivered : ℕ := 0
  name : Name := []
  /-- What is in the file that has been created. -/
  written : List Char := []

variable {φ : Type} [DecidableEq φ]

section

variable (conf : Conf) (data : List Char)

/-- The file has been created: `delivered++`. -/
def Delivering.created (s : Delivering φ) : Delivering φ :=
  { s with pc := .write, delivered := (s.delivered + 1) % 2 ^ 32 }

/-- `xcreate`, up to `fchown`. -/
def tryName (r : Result) (s : Delivering φ) : Delivering φ :=
  let name := conf.name r.time s.delivered
  let s := { s with name := name, written := [] }
  match conf.ppath tmpDir name with
  | none => { s with pc := .failure }
  | some _ =>
    match call r.fault (create (.old name) (.message name) s.dir) with
    | .error .exist => { s with delivered := (s.delivered + 1) % 2 ^ 32 }
    | .error _ => { s with pc := .failure }
    | .ok dir =>
      if conf.fileGroup.isSome then { s with pc := .chown, dir := dir }
      else Delivering.created { s with dir := dir }

/-- Behind `safemove`. -/
def moved (move : Move) : Place :=
  match move with
  | .returned ret errno =>
    if ret = 0 then .success else if errno = some .exist then .create else .failure
  | .fatal => .fatal
  | move => .moving move

/-- `deliver_maildir_deliver`. -/
def deliverStep (s : Delivering φ) (r : Result) : Option (Delivering φ) :=
  match s.pc with
  | .start =>
    -- the directories are created, or are there
    if conf.path.getD [] = [] ∨ r.fault.isSome then some { s with pc := .failure }
    else some { s with pc := .create }
  | .create => some (tryName conf r s)
  | .chown => if r.fault.isSome then some { s with pc := .failure } else some s.created
  | .write =>
    if r.fault.isSome then some { s with pc := .failure }
    else
      some { s with
        written := data.take r.count
        pc := if (data.take r.count).length = data.length then .fsync else .failure }
  | .fsync =>
    if r.fault.isSome then some { s with pc := .failure }
    else
      match conf.ppath newDir s.name with
      | none => some { s with pc := .failure }
      | some _ => some { s with pc := .moving .link }
  | .moving move =>
    (safemove s.name s.name r.fault s.dir move).map fun (move, dir) =>
      { s with pc := moved move, dir := dir }
  | _ => none

end

/-- The start of a delivery, with some files in the directories. -/
def Delivering.init (held : Path Name Name → Option φ) (delivered : ℕ) : Delivering φ where
  dir := fun path => (held path).map .held
  delivered := delivered

/-! ## What is asked -/

/-- The delivery has come to its end. -/
def Place.isFinal : Place → Bool
  | success => true
  | failure => true
  | fatal => true
  | _ => false

/-- The mail is in `new` under a name that was free there, and nothing else has changed; or nothing
has changed. -/
def AllOrNothing (data : List Char) (dir : Dir (Path Name Name) (File Name φ)) (s : Delivering φ) :
    Prop :=
  match s.pc with
  | .success => dir (.other s.name) = none ∧ s.written = data ∧
      s.dir = Function.update dir (.other s.name) (some (.message s.name))
  | .failure => s.dir = dir
  | _ => False

/-- The condition on a step: no call fails while the file is in `tmp`, but for the `link` and the
`rename` to `new`, and `write` writes all of the mail. -/
def Undisturbed (data : List Char) (s : Delivering φ) (r : Result) : Bool :=
  match s.pc with
  | .chown => r.fault.isNone
  | .write => r.fault.isNone && data.length ≤ r.count
  | .fsync => r.fault.isNone
  | .moving (.unlink _ _) => r.fault.isNone
  | _ => true

/-! ## The invariant -/

/-- The file is in `tmp`, and that is all that has changed. -/
structure Created (conf : Conf) (dir : Dir (Path Name Name) (File Name φ)) (s : Delivering φ) :
    Prop where
  free : dir (.old s.name) = none
  dir : s.dir = Function.update dir (.old s.name) (some (.message s.name))
  fits : (conf.ppath tmpDir s.name).isSome

/-- What is so while no call has failed that must not. -/
def Sound (conf : Conf) (data : List Char) (dir : Dir (Path Name Name) (File Name φ))
    (s : Delivering φ) : Prop :=
  match s.pc with
  | .start => s.dir = dir
  | .create => s.dir = dir
  | .chown => Created conf dir s
  | .write => Created conf dir s
  | .fsync => Created conf dir s ∧ s.written = data
  | .moving .link => Created conf dir s ∧ s.written = data
  | .moving .stat => Created conf dir s ∧ s.written = data
  | .moving .rename => Created conf dir s ∧ s.written = data ∧ dir (.other s.name) = none
  | .moving (.unlink ret _) =>
    -- the path in `tmp` is there or has gone, and everything else is as it will be
    s.written = data ∧ dir (.old s.name) = none ∧
      if ret = 0 then
        dir (.other s.name) = none ∧ Function.update s.dir (.old s.name) none =
          Function.update dir (.other s.name) (some (.message s.name))
      else Function.update s.dir (.old s.name) none = dir
  | _ => AllOrNothing data dir s

/-- A call has failed that must not. -/
def Spoilt (dir : Dir (Path Name Name) (File Name φ)) (s : Delivering φ) : Prop :=
  match s.pc with
  | .failure => s.dir ≠ dir
  | .fatal => True
  | _ => False

section

variable {conf : Conf} {data : List Char} {dir : Dir (Path Name Name) (File Name φ)}
  {s t : Delivering φ} {r : Result}

omit [DecidableEq φ] in
theorem Created.changed (h : Created conf dir s) : s.dir ≠ dir := by
  intro heq
  have hsome : dir (.old s.name) = some (.message s.name) := by
    rw [← heq, h.dir, Function.update_self]
  rw [h.free] at hsome
  cases hsome

/-- The two paths of a file are equally long. -/
theorem ppath_new (name : Name) (h : (conf.ppath tmpDir name).isSome) :
    (conf.ppath newDir name).isSome := by
  unfold Conf.ppath at h ⊢
  dsimp only at h ⊢
  have hlength : (conf.path.getD [] ++ newDir ++ name).length =
      (conf.path.getD [] ++ tmpDir ++ name).length := by
    simp [newDir, tmpDir]
  rw [hlength]
  split_ifs at h ⊢ with hlong
  · cases h
  · rfl

omit [DecidableEq φ] in
theorem sound_tryName (h : s.dir = dir) (r : Result) (hpc : s.pc = .create) :
    Sound conf data dir (tryName conf r s) := by
  unfold tryName
  dsimp only
  split
  · exact h
  · next hfits =>
    split
    · unfold Sound
      simp only [hpc]
      exact h
    · exact h
    · next d hcall =>
      obtain ⟨hfree, rfl⟩ := create_ok (call_ok hcall)
      have hcreated : ∀ pc n, Created conf dir { s with
          pc := pc, name := conf.name r.time s.delivered, written := [], delivered := n
          dir := Function.update s.dir (.old (conf.name r.time s.delivered))
            (some (.message (conf.name r.time s.delivered))) } := by
        intro pc n
        refine ⟨?_, ?_, ?_⟩
        · rw [← h]
          exact hfree
        · rw [h]
        · rw [hfits]
          rfl
      split_ifs
      · exact hcreated .chown _
      · exact hcreated .write _

omit [DecidableEq φ] in
/-- Without the file in `tmp` everything is as before. -/
theorem Created.undone (h : Created conf dir s) :
    Function.update s.dir (.old s.name) none = dir := by
  rw [h.dir, Function.update_idem, ← h.free, Function.update_eq_self]

omit [DecidableEq φ] in
theorem Created.other (h : Created conf dir s) : s.dir (.other s.name) = dir (.other s.name) := by
  rw [h.dir, Function.update_of_ne (by simp)]

omit [DecidableEq φ] in
/-- With the file at its path in `new` as well. -/
theorem Created.linked (h : Created conf dir s) :
    Function.update (Function.update s.dir (.other s.name) (some (.message s.name)))
      (.old s.name) none = Function.update dir (.other s.name) (some (.message s.name)) := by
  rw [Function.update_comm (by simp), h.undone]

omit [DecidableEq φ] in
/-- A move that has failed. -/
theorem sound_failed (h : Created conf dir s) (hwritten : s.written = data) (e : Option Errno) :
    Sound conf data dir { s with pc := moved (.unlink (-1) e), dir := s.dir } :=
  ⟨hwritten, h.free, by rw [if_neg (by decide)]; exact h.undone⟩

/-- `safemove`, in directories where the file is in `tmp`. -/
theorem sound_safemove {move move' : Move} {d : Dir (Path Name Name) (File Name φ)}
    (h : Sound conf data dir s) (hpc : s.pc = .moving move)
    (hguard : Undisturbed data s r = true)
    (hs : safemove s.name s.name r.fault s.dir move = some (move', d)) :
    Sound conf data dir { s with pc := moved move', dir := d } := by
  unfold Sound at h
  rw [hpc] at h
  cases move with
  | link =>
    obtain ⟨hcreated, hwritten⟩ := h
    unfold safemove at hs
    dsimp only at hs
    split at hs
    · next d' hcall =>
      obtain ⟨rfl, rfl⟩ : .unlink 0 none = move' ∧ d' = d := by simpa using hs
      obtain ⟨f, hf, hnew, rfl⟩ := link_ok (call_ok hcall)
      obtain rfl : .message s.name = f := by
        rw [hcreated.dir, Function.update_self] at hf
        exact Option.some_inj.mp hf
      refine ⟨hwritten, hcreated.free, ?_⟩
      rw [if_pos rfl]
      exact ⟨hcreated.other.symm.trans hnew, hcreated.linked⟩
    · obtain ⟨rfl, rfl⟩ : .stat = move' ∧ s.dir = d := by simpa using hs
      exact ⟨⟨hcreated.free, hcreated.dir, hcreated.fits⟩, hwritten⟩
    · next e _ _ =>
      obtain ⟨rfl, rfl⟩ : .unlink (-1) (some e) = move' ∧ s.dir = d := by simpa using hs
      exact sound_failed hcreated hwritten _
  | stat =>
    obtain ⟨hcreated, hwritten⟩ := h
    unfold safemove at hs
    dsimp only at hs
    split at hs
    · next fault _ =>
      obtain ⟨rfl, rfl⟩ : .unlink (-1) (some fault.errno) = move' ∧ s.dir = d := by
        simpa using hs
      exact sound_failed hcreated hwritten _
    · split_ifs at hs with hthere
      · obtain ⟨rfl, rfl⟩ : .unlink (-1) (some .exist) = move' ∧ s.dir = d := by simpa using hs
        exact sound_failed hcreated hwritten _
      · obtain ⟨rfl, rfl⟩ : .rename = move' ∧ s.dir = d := by simpa using hs
        refine ⟨⟨hcreated.free, hcreated.dir, hcreated.fits⟩, hwritten, ?_⟩
        rw [← hcreated.other]
        simpa using hthere
  | rename =>
    obtain ⟨hcreated, hwritten, hnew⟩ := h
    unfold safemove at hs
    dsimp only at hs
    split at hs
    · next d' hcall =>
      obtain ⟨rfl, rfl⟩ : .unlink 0 none = move' ∧ d' = d := by simpa using hs
      obtain ⟨f, hf, hdone | ⟨-, rfl⟩⟩ := rename_ok (call_ok hcall)
      · rw [hcreated.other, hnew] at hdone
        cases hdone.1
      · obtain rfl : .message s.name = f := by
          rw [hcreated.dir, Function.update_self] at hf
          exact Option.some_inj.mp hf
        refine ⟨hwritten, hcreated.free, ?_⟩
        rw [if_pos rfl]
        refine ⟨hnew, ?_⟩
        rw [Function.update_idem]
        exact hcreated.linked
    · next e _ =>
      obtain ⟨rfl, rfl⟩ : .unlink (-1) (some e) = move' ∧ s.dir = d := by simpa using hs
      exact sound_failed hcreated hwritten _
  | unlink ret errsave =>
    obtain ⟨hwritten, hfree, hrest⟩ := h
    have hfault : r.fault = none := by
      unfold Undisturbed at hguard
      simpa [hpc] using hguard
    -- the path in `tmp` is removed, or had gone
    have hgone : move' = .returned ret errsave ∧ d = Function.update s.dir (.old s.name) none := by
      unfold safemove at hs
      rw [hfault] at hs
      dsimp only [call] at hs
      split at hs
      · next d' hcall =>
        obtain ⟨rfl, rfl⟩ : .returned ret errsave = move' ∧ d' = d := by simpa using hs
        exact ⟨rfl, (unlink_ok hcall).2⟩
      · next hcall =>
        obtain ⟨rfl, rfl⟩ : .returned ret errsave = move' ∧ s.dir = d := by simpa using hs
        exact ⟨rfl, by rw [← (unlink_error hcall).1, Function.update_eq_self]⟩
      · next e hne hcall => exact absurd (unlink_error hcall).2 hne
    obtain ⟨rfl, rfl⟩ := hgone
    unfold Sound moved
    dsimp only
    split_ifs at hrest ⊢ with hret hexist
    · exact ⟨hrest.1, hwritten, hrest.2⟩
    · exact hrest
    · exact hrest
  | returned ret errno => cases hs
  | fatal => cases hs

/-! ## Steps and runs -/

/-- A step in which no call fails that must not. -/
theorem sound_step (h : Sound conf data dir s) (hguard : Undisturbed data s r = true)
    (hs : deliverStep conf data s r = some t) : Sound conf data dir t := by
  unfold deliverStep at hs
  cases hpc : s.pc with
  | start =>
    unfold Sound at h
    rw [hpc] at h hs
    dsimp only at hs
    split_ifs at hs
    · obtain rfl := Option.some_inj.mp hs
      exact h
    · obtain rfl := Option.some_inj.mp hs
      exact h
  | create =>
    unfold Sound at h
    rw [hpc] at h hs
    obtain rfl := Option.some_inj.mp hs
    exact sound_tryName h r hpc
  | chown =>
    unfold Sound at h
    rw [hpc] at h hs
    have hfault : r.fault.isSome = false := by
      unfold Undisturbed at hguard
      simpa [hpc] using hguard
    simp only [hfault] at hs
    obtain rfl := Option.some_inj.mp hs
    exact ⟨h.free, h.dir, h.fits⟩
  | write =>
    unfold Sound at h
    rw [hpc] at h hs
    unfold Undisturbed at hguard
    simp only [hpc, Bool.and_eq_true, Option.isNone_iff_eq_none, decide_eq_true_eq] at hguard
    have hall : data.take r.count = data := List.take_of_length_le hguard.2
    simp only [hguard.1, hall] at hs
    obtain rfl := Option.some_inj.mp hs
    exact ⟨⟨h.free, h.dir, h.fits⟩, rfl⟩
  | fsync =>
    unfold Sound at h
    rw [hpc] at h hs
    unfold Undisturbed at hguard
    simp only [hpc, Option.isNone_iff_eq_none] at hguard
    simp only [hguard] at hs
    -- the path in `new` is not too long, as the one in `tmp` was not
    obtain ⟨path, hpath⟩ := Option.isSome_iff_exists.mp (ppath_new s.name h.1.fits)
    rw [hpath] at hs
    obtain rfl := Option.some_inj.mp hs
    exact ⟨⟨h.1.free, h.1.dir, h.1.fits⟩, h.2⟩
  | moving move =>
    rw [hpc] at hs
    obtain ⟨⟨move', d⟩, hmove, rfl⟩ := Option.map_eq_some_iff.mp hs
    exact sound_safemove h hpc hguard hmove
  | success => rw [hpc] at hs; cases hs
  | failure => rw [hpc] at hs; cases hs
  | fatal => rw [hpc] at hs; cases hs

/-- A step in which a call fails that must not. -/
theorem spoilt_step (h : Sound conf data dir s) (hguard : Undisturbed data s r = false)
    (hs : deliverStep conf data s r = some t) : Spoilt dir t := by
  unfold Undisturbed at hguard
  unfold deliverStep at hs
  unfold Sound at h
  cases hpc : s.pc with
  | chown =>
    rw [hpc] at h hs hguard
    have hfault : r.fault.isSome = true := by simpa using hguard
    simp only [hfault] at hs
    obtain rfl := Option.some_inj.mp hs
    exact h.changed
  | write =>
    rw [hpc] at h hs hguard
    by_cases hfault : r.fault.isSome = true
    · simp only [hfault] at hs
      obtain rfl := Option.some_inj.mp hs
      exact h.changed
    · have hnone : r.fault = none := by simpa using hfault
      have hshort : (data.take r.count).length ≠ data.length := by
        simp only [hnone, Option.isNone_none, Bool.true_and, decide_eq_false_iff_not] at hguard
        rw [List.length_take]
        omega
      simp only [hnone, hshort] at hs
      obtain rfl := Option.some_inj.mp hs
      exact h.changed
  | fsync =>
    rw [hpc] at h hs hguard
    have hfault : r.fault.isSome = true := by simpa using hguard
    simp only [hfault] at hs
    obtain rfl := Option.some_inj.mp hs
    exact h.1.changed
  | moving move =>
    rw [hpc] at hguard hs
    cases move with
    | unlink ret errsave =>
      obtain ⟨fault, hfault⟩ : ∃ fault, r.fault = some fault := by
        simpa [Option.isSome_iff_exists] using hguard
      obtain ⟨⟨move', d⟩, hmove, rfl⟩ := Option.map_eq_some_iff.mp hs
      unfold safemove at hmove
      rw [hfault] at hmove
      -- the error is none that is overlooked
      have hfatal : move' = .fatal := by
        cases fault with
        | xdev => exact (Prod.mk.inj (Option.some_inj.mp hmove)).1.symm
        | other n => exact (Prod.mk.inj (Option.some_inj.mp hmove)).1.symm
      rw [hfatal]
      trivial
    | link => cases hguard
    | stat => cases hguard
    | rename => cases hguard
    | returned ret errno => cases hguard
    | fatal => cases hguard
  | start => rw [hpc] at hguard; cases hguard
  | create => rw [hpc] at hguard; cases hguard
  | success => rw [hpc] at hguard; cases hguard
  | failure => rw [hpc] at hguard; cases hguard
  | fatal => rw [hpc] at hguard; cases hguard

omit [DecidableEq φ] in
theorem Spoilt.pc (h : Spoilt dir s) : s.pc = .failure ∧ s.dir ≠ dir ∨ s.pc = .fatal := by
  unfold Spoilt at h
  cases hpc : s.pc with
  | failure => rw [hpc] at h; exact .inl ⟨rfl, h⟩
  | fatal => exact .inr rfl
  | _ => rw [hpc] at h; cases h

omit [DecidableEq φ] in
theorem Spoilt.not_allOrNothing (h : Spoilt dir s) : ¬ AllOrNothing data dir s := by
  intro hall
  unfold AllOrNothing at hall
  rcases h.pc with ⟨hpc, hne⟩ | hpc
  · rw [hpc] at hall
    exact hne hall
  · rw [hpc] at hall
    exact hall

omit [DecidableEq φ] in
theorem Sound.allOrNothing (h : Sound conf data dir s) (hfinal : s.pc.isFinal = true) :
    AllOrNothing data dir s := by
  unfold Sound at h
  cases hpc : s.pc with
  | success => rw [hpc] at h; exact h
  | failure => rw [hpc] at h; exact h
  | fatal => rw [hpc] at h; exact h
  | _ => rw [hpc] at hfinal; cases hfinal

/-- A delivery that comes to its end is all or nothing just when no call fails that must not. -/
theorem allOrNothing_iff {held : Path Name Name → Option φ} {delivered : ℕ} {rs : List Result}
    (h : exec (deliverStep conf data) (Delivering.init held delivered) rs = some t)
    (hfinal : t.pc.isFinal = true) :
    AllOrNothing data (Delivering.init held delivered).dir t ↔
      exec (guarded (deliverStep conf data) (Undisturbed data)) (Delivering.init held delivered) rs =
        some t := by
  have hinit : Sound conf data (Delivering.init held delivered).dir
      (Delivering.init held delivered : Delivering φ) := rfl
  have hstays : ∀ (s : Delivering φ) r u, Spoilt (Delivering.init held delivered).dir s →
      deliverStep conf data s r = some u → Spoilt (Delivering.init held delivered).dir u := by
    intro s r u hspoilt hs
    -- there are no steps any more
    unfold deliverStep at hs
    rcases hspoilt.pc with ⟨hpc, -⟩ | hpc
    · rw [hpc] at hs
      cases hs
    · rw [hpc] at hs
      cases hs
  exact iff_execGuarded (fun _ _ _ => sound_step) (fun _ _ _ => spoilt_step) hstays hinit h
    (fun hsound => hsound.allOrNothing hfinal) Spoilt.not_allOrNothing

end

end Fdm.Maildir
