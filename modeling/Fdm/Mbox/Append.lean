import Fdm.Lib.Runs
import Fdm.Mbox.Deliver

/-!
# Appending to an mbox

`deliver_mbox_deliver` without compression, when its calls can fail. The bytes go through the
buffer of a `FILE`: each call that writes takes bytes into it, and brings some of those in it to
the mbox. One step is one call. The whole entry is to be in the mbox, or the mbox is to be as it
was.
-/

namespace Fdm.Mbox.Append

open Lib.Lines Lib.Runs

/-- What is written for a line of a mail behind the first one: a `>` in front of one that looks
like a `From ` line. -/
def lineWrites (l : List Char) : List (List Char) :=
  if Mail.fromPrefix <+: l.dropWhile (· = '>') then [['>'], l] else [l]

/-- The calls of `deliver_mbox_write`, by what each of them writes. -/
def writes (fromLine data : List Char) : List (List Char) :=
  fromLine :: ['\n'] ::
    (match lines data with
      | [] => []
      | l :: ls => l :: ls.flatMap lineWrites) ++ [closing data]

/-- What comes of a call. -/
structure AppendResult where
  fails : Bool := false
  /-- `errno` is `EAGAIN`; the mbox is locked. -/
  again : Bool := false
  /-- `rmlock` fails, when `openlock` or `createlock` gives its lock up again. -/
  rmlock : Bool := false
  /-- How many bytes a call of `fwrite` that fails has taken into the buffer. -/
  taken : ℕ := 0
  /-- How many bytes are brought to the mbox. -/
  flushed : ℕ := 0

/-- Where a delivery is. -/
inductive AppendPc
  | start
  | lock
  | fdopen
  | block
  | writing (rest : List (List Char))
  | sync
  | unblock (ok : Bool)
  | close (ok : Bool)
  | returned (ok : Bool)
  /-- `fatal` has ended the process. -/
  | fatal
deriving DecidableEq, Repr

/-- The state of a delivery. -/
structure Appending where
  pc : AppendPc := .start
  /-- What the mbox holds; nothing when it is not there. -/
  file : List Char
  buffer : List Char := []
deriving DecidableEq, Repr

/-- Some bytes are taken into the buffer, and then some that are in it are brought to the mbox. -/
def Appending.write (bytes : List Char) (n : ℕ) (pc : AppendPc) (s : Appending) : Appending where
  pc := pc
  file := s.file ++ (s.buffer ++ bytes).take n
  buffer := (s.buffer ++ bytes).drop n

/-- `fwrite` fails; it does so as well when it is given no bytes. -/
def AppendResult.short (r : AppendResult) (chunk : List Char) : Bool := r.fails || chunk.isEmpty

/-- `deliver_mbox_deliver`. -/
def appendStep (fromLine data : List Char) (s : Appending) (r : AppendResult) : Option Appending :=
  match s.pc with
  | .start => some { s with pc := if r.fails then .returned false else .lock }
  | .lock =>
    if r.rmlock then some { s with pc := .fatal }
    -- `locksleep` may give up
    else if r.again then some { s with pc := if r.fails then .returned false else .lock }
    else some { s with pc := if r.fails then .returned false else .fdopen }
  | .fdopen => some { s with pc := if r.fails then .close false else .block }
  | .block => some { s with pc := if r.fails then .fatal else .writing (writes fromLine data) }
  | .writing (chunk :: rest) =>
    if r.short chunk then some (s.write (chunk.take r.taken) r.flushed (.unblock false))
    else some (s.write chunk r.flushed (.writing rest))
  | .writing [] =>
    -- `fflush`
    if r.fails then some (s.write [] r.flushed (.unblock false))
    else some (s.write [] s.buffer.length .sync)
  | .sync => some { s with pc := .unblock !r.fails }
  | .unblock ok => some { s with pc := if r.fails then .fatal else .close ok }
  | .close ok =>
    -- `fclose` writes what is in the buffer, and then the lock is removed
    some { s.write [] r.flushed (if r.fails then .fatal else .returned ok) with buffer := [] }
  | _ => none

/-! ## What is asked -/

/-- The delivery has come to its end. -/
def AppendPc.isFinal : AppendPc → Bool
  | returned _ => true
  | fatal => true
  | _ => false

/-- The whole entry is in the mbox, or the mbox holds what it held before. -/
def AllOrNothing (entry held : List Char) (s : Appending) : Prop :=
  match s.pc with
  | .returned true => s.file = held ++ entry
  | .returned false => s.file = held
  | _ => False

/-- The condition on a step: no call fails when some of the entry is in the mbox, or is brought
there by this call, or by `fclose` later on; and none fails that ends the process. -/
def Untouched (held : List Char) (s : Appending) (r : AppendResult) : Bool :=
  match s.pc with
  | .lock => !r.rmlock
  | .block => !r.fails
  | .writing (chunk :: _) => !r.short chunk ||
      s.file = held && ((s.buffer ++ chunk.take r.taken).take r.flushed).isEmpty
  | .writing [] => !r.fails || s.file = held && (s.buffer.take r.flushed).isEmpty
  | .sync => !r.fails
  | .unblock _ => !r.fails
  | .close _ => !r.fails && (s.buffer.take r.flushed).isEmpty
  | _ => true

/-! ## The invariant -/

/-- The entry of a mail. -/
def entry (fromLine data : List Char) : List Char := (writes fromLine data).flatten

/-- It is what `deliver` gives. -/
theorem entry_eq (fromLine data : List Char) : entry fromLine data =
    fromLine ++ ['\n'] ++ (quoteLines (lines data)).flatten ++ closing data := by
  have hline : ∀ l, (lineWrites l).flatten = quote l := by
    intro l
    unfold lineWrites quote
    split_ifs <;> simp
  have hlines : ∀ ls : List (List Char), (ls.flatMap lineWrites).flatten = (ls.map quote).flatten := by
    intro ls
    induction ls with
    | nil => rfl
    | cons l ls ih => rw [List.flatMap_cons, List.flatten_append, hline, ih]; rfl
  unfold entry writes
  cases lines data with
  | nil => simp [quoteLines]
  | cons l ls => simp [quoteLines, hlines]

theorem deliver_eq_entry {α : Type} {m : Mail α} {user ctime fromLine : List Char}
    (h : m.makeFrom user ctime = some fromLine) :
    deliver user ctime m = some (entry fromLine m.data) := by
  rw [deliver, h, entry_eq]
  rfl

theorem entry_ne_nil (fromLine data : List Char) : entry fromLine data ≠ [] := by
  rw [entry_eq]
  simp

/-- What is so while no call has failed that must not. -/
def Sound (entry held : List Char) (s : Appending) : Prop :=
  match s.pc with
  | .start => s.file = held ∧ s.buffer = []
  | .lock => s.file = held ∧ s.buffer = []
  | .fdopen => s.file = held ∧ s.buffer = []
  | .block => s.file = held ∧ s.buffer = []
  | .writing rest => ∃ put, s.file = held ++ put ∧ put ++ s.buffer ++ rest.flatten = entry
  | .sync => s.file = held ++ entry ∧ s.buffer = []
  | .unblock true => s.file = held ++ entry ∧ s.buffer = []
  | .unblock false => s.file = held
  | .close true => s.file = held ++ entry ∧ s.buffer = []
  | .close false => s.file = held
  | _ => AllOrNothing entry held s

/-- A call has failed that must not: some of the entry is in the mbox for good. -/
def Spoilt (held : List Char) (s : Appending) : Prop :=
  match s.pc with
  | .unblock false => held.length < s.file.length
  | .close false => held.length < s.file.length
  | .returned false => held.length < s.file.length
  | .fatal => True
  | _ => False

section

variable {fromLine data held : List Char} {s t : Appending} {r : AppendResult}

/-- A step in which no call fails that must not. -/
theorem sound_step (h : Sound (entry fromLine data) held s) (hguard : Untouched held s r = true)
    (hs : appendStep fromLine data s r = some t) : Sound (entry fromLine data) held t := by
  unfold Sound at h
  unfold appendStep at hs
  unfold Untouched at hguard
  cases hpc : s.pc with
  | start =>
    rw [hpc] at h hs
    obtain rfl := Option.some_inj.mp hs
    cases r.fails with
    | true => exact h.1
    | false => exact h
  | lock =>
    rw [hpc] at h hs hguard
    have hrmlock : r.rmlock = false := by simpa using hguard
    rw [hrmlock] at hs
    cases hfails : r.fails with
    | true =>
      -- the lock has been given up, and nothing was written
      simp only [hfails, Bool.false_eq_true, if_false, if_true, ite_self] at hs
      obtain rfl := Option.some_inj.mp hs
      exact h.1
    | false =>
      cases hagain : r.again with
      | true =>
        simp only [hfails, hagain] at hs
        obtain rfl := Option.some_inj.mp hs
        exact h
      | false =>
        simp only [hfails, hagain] at hs
        obtain rfl := Option.some_inj.mp hs
        exact h
  | fdopen =>
    rw [hpc] at h hs
    obtain rfl := Option.some_inj.mp hs
    cases r.fails with
    | true => exact h.1
    | false => exact h
  | block =>
    rw [hpc] at h hs hguard
    have hfails : r.fails = false := by simpa using hguard
    simp only [hfails] at hs
    obtain rfl := Option.some_inj.mp hs
    exact ⟨[], by simp [h.1], by simp [h.2, entry]⟩
  | writing rest =>
    rw [hpc] at h hs hguard
    obtain ⟨put, hfile, hentry⟩ := h
    cases rest with
    | nil =>
      dsimp only at hs hguard
      cases hfails : r.fails with
      | true =>
        simp only [hfails, Bool.not_true, Bool.false_or, Bool.and_eq_true, decide_eq_true_eq,
          List.isEmpty_iff] at hs hguard
        obtain rfl := Option.some_inj.mp hs
        show s.file ++ (s.buffer ++ []).take r.flushed = held
        rw [List.append_nil, hguard.1, hguard.2, List.append_nil]
      | false =>
        simp only [hfails] at hs
        obtain rfl := Option.some_inj.mp hs
        simp only [List.flatten_nil, List.append_nil] at hentry
        refine ⟨?_, ?_⟩
        · show s.file ++ (s.buffer ++ []).take s.buffer.length = _
          rw [List.append_nil, List.take_length, hfile, List.append_assoc, hentry]
        · show (s.buffer ++ []).drop s.buffer.length = []
          simp
    | cons chunk rest =>
      dsimp only at hs hguard
      cases hshort : r.short chunk with
      | true =>
        simp only [hshort, Bool.not_true, Bool.false_or, Bool.and_eq_true, decide_eq_true_eq,
          List.isEmpty_iff] at hs hguard
        obtain rfl := Option.some_inj.mp hs
        show s.file ++ (s.buffer ++ chunk.take r.taken).take r.flushed = held
        rw [hguard.1, hguard.2, List.append_nil]
      | false =>
        simp only [hshort] at hs
        obtain rfl := Option.some_inj.mp hs
        refine ⟨put ++ (s.buffer ++ chunk).take r.flushed, ?_, ?_⟩
        · show s.file ++ _ = _
          rw [hfile, List.append_assoc]
        · -- the bytes are in the mbox, in the buffer or still to come
          show put ++ (s.buffer ++ chunk).take r.flushed ++ (s.buffer ++ chunk).drop r.flushed ++
            rest.flatten = _
          rw [List.append_assoc put, List.take_append_drop, ← hentry]
          simp
  | sync =>
    rw [hpc] at h hs hguard
    have hfails : r.fails = false := by simpa using hguard
    simp only [hfails] at hs
    obtain rfl := Option.some_inj.mp hs
    exact h
  | unblock ok =>
    rw [hpc] at h hs hguard
    have hfails : r.fails = false := by simpa using hguard
    simp only [hfails] at hs
    obtain rfl := Option.some_inj.mp hs
    cases ok with
    | true => exact h
    | false => exact h
  | close ok =>
    rw [hpc] at h hs hguard
    simp only [Bool.and_eq_true, Bool.not_eq_true', List.isEmpty_iff] at hguard
    simp only [hguard.1] at hs
    obtain rfl := Option.some_inj.mp hs
    have hsame : s.file ++ (s.buffer ++ []).take r.flushed = s.file := by
      rw [List.append_nil, hguard.2, List.append_nil]
    cases ok with
    | true => exact hsame.trans h.1
    | false => exact hsame.trans h
  | returned ok => rw [hpc] at hs; cases hs
  | fatal => rw [hpc] at hs; cases hs

/-- The mbox has got longer. -/
theorem length_lt_write {put bytes : List Char} {n : ℕ} {pc : AppendPc}
    (hfile : s.file = held ++ put)
    (h : ¬ (s.file = held ∧ (s.buffer ++ bytes).take n = [])) :
    held.length < (s.write bytes n pc).file.length := by
  have hlength : (s.write bytes n pc).file.length =
      held.length + put.length + ((s.buffer ++ bytes).take n).length := by
    show (s.file ++ (s.buffer ++ bytes).take n).length = _
    rw [hfile, List.length_append, List.length_append]
  rw [hlength]
  by_contra hle
  have hput : put = [] := List.eq_nil_of_length_eq_zero (by omega)
  have htake : (s.buffer ++ bytes).take n = [] := List.eq_nil_of_length_eq_zero (by omega)
  exact h ⟨by rw [hfile, hput, List.append_nil], htake⟩

/-- A step in which a call fails that must not. -/
theorem spoilt_step (h : Sound (entry fromLine data) held s) (hguard : Untouched held s r = false)
    (hs : appendStep fromLine data s r = some t) : Spoilt held t := by
  unfold Sound at h
  unfold appendStep at hs
  unfold Untouched at hguard
  cases hpc : s.pc with
  | lock =>
    rw [hpc] at hs hguard
    have hrmlock : r.rmlock = true := by simpa using hguard
    simp only [hrmlock, if_true] at hs
    obtain rfl := Option.some_inj.mp hs
    trivial
  | block =>
    rw [hpc] at hs hguard
    have hfails : r.fails = true := by simpa using hguard
    simp only [hfails] at hs
    obtain rfl := Option.some_inj.mp hs
    trivial
  | writing rest =>
    rw [hpc] at h hs hguard
    obtain ⟨put, hfile, -⟩ := h
    cases rest with
    | nil =>
      simp only [Bool.or_eq_false_iff, Bool.not_eq_false'] at hs hguard
      simp only [hguard.1] at hs
      obtain rfl := Option.some_inj.mp hs
      refine length_lt_write hfile fun hsame => ?_
      have hnone : s.buffer.take r.flushed = [] := by simpa using hsame.2
      simp [hsame.1, hnone] at hguard
    | cons chunk rest =>
      simp only [Bool.or_eq_false_iff, Bool.not_eq_false'] at hs hguard
      simp only [hguard.1] at hs
      obtain rfl := Option.some_inj.mp hs
      refine length_lt_write hfile fun hsame => ?_
      simp [hsame.1, hsame.2] at hguard
  | sync =>
    rw [hpc] at h hs hguard
    have hfails : r.fails = true := by simpa using hguard
    simp only [hfails] at hs
    obtain rfl := Option.some_inj.mp hs
    show held.length < s.file.length
    have hpos := List.length_pos_iff.mpr (entry_ne_nil fromLine data)
    rw [h.1, List.length_append]
    omega
  | unblock ok =>
    rw [hpc] at hs hguard
    have hfails : r.fails = true := by simpa using hguard
    simp only [hfails] at hs
    obtain rfl := Option.some_inj.mp hs
    trivial
  | close ok =>
    rw [hpc] at h hs hguard
    cases hfails : r.fails with
    | true =>
      simp only [hfails] at hs
      obtain rfl := Option.some_inj.mp hs
      trivial
    | false =>
      simp only [hfails, Bool.not_false, Bool.true_and] at hs hguard
      obtain rfl := Option.some_inj.mp hs
      cases ok with
      | true =>
        -- everything has been flushed
        simp [h.2] at hguard
      | false =>
        have hfile : s.file = held ++ [] := by simpa using h
        show held.length < (s.write [] r.flushed (.returned false)).file.length
        refine length_lt_write hfile fun hsame => ?_
        have hnone : s.buffer.take r.flushed = [] := by simpa using hsame.2
        simp [hnone] at hguard
  | start => rw [hpc] at hguard; cases hguard
  | fdopen => rw [hpc] at hguard; cases hguard
  | returned ok => rw [hpc] at hguard; cases hguard
  | fatal => rw [hpc] at hguard; cases hguard

/-- What is in the mbox stays there. -/
theorem spoilt_stays (h : Spoilt held s) (hs : appendStep fromLine data s r = some t) :
    Spoilt held t := by
  unfold Spoilt at h
  unfold appendStep at hs
  cases hpc : s.pc with
  | unblock ok =>
    rw [hpc] at h hs
    obtain rfl := Option.some_inj.mp hs
    cases ok with
    | true => cases h
    | false =>
      cases r.fails with
      | true => trivial
      | false => exact h
  | close ok =>
    rw [hpc] at h hs
    obtain rfl := Option.some_inj.mp hs
    cases ok with
    | true => cases h
    | false =>
      cases r.fails with
      | true => trivial
      | false =>
        show held.length < (s.file ++ (s.buffer ++ []).take r.flushed).length
        rw [List.length_append]
        exact Nat.lt_add_right _ h
  | returned ok => rw [hpc] at hs; cases hs
  | fatal => rw [hpc] at hs; cases hs
  | _ => rw [hpc] at h; cases h

theorem Sound.allOrNothing {entry : List Char} (h : Sound entry held s)
    (hfinal : s.pc.isFinal = true) : AllOrNothing entry held s := by
  unfold Sound at h
  cases hpc : s.pc with
  | returned ok => rw [hpc] at h; exact h
  | fatal => rw [hpc] at h; exact h
  | _ => rw [hpc] at hfinal; cases hfinal

theorem Spoilt.not_allOrNothing (h : Spoilt held s) (hfinal : s.pc.isFinal = true)
    (entry : List Char) : ¬ AllOrNothing entry held s := by
  unfold Spoilt at h
  unfold AllOrNothing
  cases hpc : s.pc with
  | returned ok =>
    rw [hpc] at h
    cases ok with
    | true => cases h
    | false =>
      intro hsame
      rw [hsame] at h
      exact Nat.lt_irrefl _ h
  | fatal => exact id
  | _ => rw [hpc] at hfinal; cases hfinal

/-- A delivery that comes to its end is all or nothing just when no call fails that must not. -/
theorem allOrNothing_iff {rs : List AppendResult}
    (h : exec (appendStep fromLine data) { file := held } rs = some t)
    (hfinal : t.pc.isFinal = true) :
    AllOrNothing (entry fromLine data) held t ↔
      exec (guarded (appendStep fromLine data) (Untouched held)) { file := held } rs = some t := by
  have hinit : Sound (entry fromLine data) held { file := held } := ⟨rfl, rfl⟩
  exact iff_execGuarded (fun _ _ _ => sound_step) (fun _ _ _ => spoilt_step)
    (fun _ _ _ => spoilt_stays) hinit h (fun hsound => hsound.allOrNothing hfinal)
    fun hspoilt => hspoilt.not_allOrNothing hfinal _

end

end Fdm.Mbox.Append
