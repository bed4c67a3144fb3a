import Fdm.Lib.Holdings
import Fdm.Lib.Runs
import Fdm.Shm.Defs

/-!
# Every file is held once or left behind

`Accounts` is the account of the files, of the lists of the fetch children and of that of the
parent. A function of `mail.c` takes a file from one side of an equation and from the other, so
that each step keeps them; and what a process has according to them can be removed.
-/

namespace Fdm.Shm

open Lib.Holdings Lib.Runs

/-! ## Accounts -/

/-- The files of a mail that a fetch child has mapped. -/
def MailCtx.files (c : MailCtx) : List ℕ := c.mail.files

/-- The same, if the fetch child is `a`. -/
def MailCtx.filesOf (a : ℕ) (c : MailCtx) : List ℕ := if c.child = a then c.files else []

def lostFiles (e : ℕ × ℕ) : List ℕ := [e.2]

def lostFilesOf (a : ℕ) (e : ℕ × ℕ) : List ℕ := if e.1 = a then [e.2] else []

/-- The file that a delivery writes back to. -/
def Delivery.files (d : Delivery) : List ℕ := d.wrMail.toList

/-- The files that the parent has mapped for a delivery. -/
def Delivery.mapped (d : Delivery) : List ℕ := d.mail :: d.wrMail.toList

/-- How often a file is held: by a fetch child, by a delivery that writes back, by a reply. -/
def Sys.holds (s : Sys) (n : ℕ) : ℕ :=
  held MailCtx.files s.mails n + held lostFiles s.lost n + held Delivery.files s.deliveries n +
    held Reply.files s.replies n

structure Accounts (s : Sys) : Prop where
  files : ∀ n, s.files.count n = s.holds n + s.orphans.count n
  nodup : s.files.Nodup
  clean : ∀ a n, (s.clean a).count n =
    held (MailCtx.filesOf a) s.mails n + held (lostFilesOf a) s.lost n
  parent : ∀ n, s.parentClean.count n = held Delivery.mapped s.deliveries n + s.stale.count n
  running : ∀ c ∈ s.mails, s.life c.child = .running
  here : ∀ r ∈ s.replies, s.life r.child ≠ .gone

section
variable {s s' : Sys} {a b n : ℕ}

theorem held_filesOf (l : List MailCtx) :
    held (MailCtx.filesOf a) l n = held MailCtx.files (l.filter fun c => c.child == a) n := by
  induction l with
  | nil => rfl
  | cons c l ih =>
    rw [held_cons, ih, MailCtx.filesOf]
    by_cases h : c.child = a
    · rw [if_pos h, List.filter_cons_of_pos (by simpa using h), held_cons]
    · rw [if_neg h, List.filter_cons_of_neg (by simpa using h), List.count_nil, Nat.zero_add]

theorem held_lostFilesOf (l : List (ℕ × ℕ)) :
    held (lostFilesOf a) l n = ((l.filter fun e => e.1 == a).map Prod.snd).count n := by
  induction l with
  | nil => rfl
  | cons e l ih =>
    rw [held_cons, ih, lostFilesOf]
    by_cases h : e.1 = a
    · rw [if_pos h, List.filter_cons_of_pos (by simpa using h), List.map_cons, ← List.count_append]
      rfl
    · rw [if_neg h, List.filter_cons_of_neg (by simpa using h), List.count_nil, Nat.zero_add]

/-- What is left of the mails when those of a fetch child are gone. -/
theorem held_filter_ne (f : MailCtx → List ℕ) (l : List MailCtx) :
    held f l n = held f (l.filter fun c => c.child == a) n +
      held f (l.filter fun c => c.child != a) n :=
  held_partition fun c : MailCtx => c.child == a

end

/-! ## The functions of a process -/

namespace Proc

variable {p : Proc} {k r : ℕ → ℕ}

theorem count_erase_self {l : List ℕ} {n i : ℕ} {k : ℕ} (h : l.count i = [n].count i + k) :
    (l.erase n).count i = k := by
  rw [List.count_erase, h, List.count_singleton]
  split_ifs <;> omega

theorem mem_of_count {l : List ℕ} {n : ℕ} (h : ∀ i, l.count i = [n].count i + k i) : n ∈ l := by
  rw [← List.count_pos_iff, h n, List.count_singleton_self]
  omega

/-- A mail can be closed if the list has its file. -/
theorem mailClose_ok {m : Mail} (h : ∀ i, p.clean.count i = m.files.count i + k i) :
    ∃ p', p.mailClose m = .ok p' ∧ p'.files = p.files ∧ ∀ i, p'.clean.count i = k i := by
  cases m with
  | shut name => exact ⟨p, rfl, rfl, fun i => (h i).trans (Nat.zero_add _)⟩
  | mapped n =>
    exact ⟨{ p with clean := p.clean.erase n }, if_pos (mem_of_count h), rfl,
      fun i => count_erase_self (h i)⟩

/-- A mail can be destroyed if the list and the directory have its file. -/
theorem mailDestroy_ok {m : Mail} (hclean : ∀ i, p.clean.count i = m.files.count i + k i)
    (hfiles : ∀ i, p.files.count i = m.files.count i + r i) :
    ∃ p', p.mailDestroy m = .ok p' ∧ (∀ i, p'.clean.count i = k i) ∧
      (∀ i, p'.files.count i = r i) ∧ p'.files.Sublist p.files := by
  cases m with
  | shut name =>
    exact ⟨p, rfl, fun i => (hclean i).trans (Nat.zero_add _),
      fun i => (hfiles i).trans (Nat.zero_add _), .refl _⟩
  | mapped n =>
    have hdestroy : p.mailDestroy (.mapped n) =
        .ok { files := p.files.erase n, clean := p.clean.erase n } := by
      rw [mailDestroy, deregister, if_pos (mem_of_count hclean)]
      exact if_pos (mem_of_count hfiles)
    exact ⟨_, hdestroy, fun i => count_erase_self (hclean i), fun i => count_erase_self (hfiles i),
      List.erase_sublist⟩

/-- The end of `fetch_account`: all the mails are destroyed. -/
theorem destroyAll_ok (mails : List MailCtx)
    (hclean : ∀ i, p.clean.count i = held MailCtx.files mails i + k i)
    (hfiles : ∀ i, p.files.count i = held MailCtx.files mails i + r i) :
    ∃ p', mails.foldlM (fun p c => p.mailDestroy c.mail) p = .ok p' ∧
      (∀ i, p'.clean.count i = k i) ∧ (∀ i, p'.files.count i = r i) ∧
        p'.files.Sublist p.files := by
  induction mails generalizing p with
  | nil =>
    exact ⟨p, rfl, fun i => (hclean i).trans (Nat.zero_add _),
      fun i => (hfiles i).trans (Nat.zero_add _), .refl _⟩
  | cons c mails ih =>
    obtain ⟨p₁, hp₁, hclean₁, hfiles₁, hsub₁⟩ :=
      mailDestroy_ok (m := c.mail) (k := fun i => held MailCtx.files mails i + k i)
        (r := fun i => held MailCtx.files mails i + r i)
        (fun i => by rw [hclean, held_cons, Nat.add_assoc]; rfl)
        (fun i => by rw [hfiles, held_cons, Nat.add_assoc]; rfl)
    obtain ⟨p', hp', hclean', hfiles', hsub'⟩ := ih hclean₁ hfiles₁
    refine ⟨p', ?_, hclean', hfiles', hsub'.trans hsub₁⟩
    rw [List.foldlM_cons, hp₁]
    exact hp'

/-- `cleanup_purge`: the files of the list are removed. -/
theorem purge_ok (hfiles : ∀ i, p.files.count i = p.clean.count i + r i) :
    ∃ p', p.purge = .ok p' ∧ (∀ i, p'.files.count i = r i) ∧ p'.files.Sublist p.files := by
  have hfold (l : List ℕ) (p : Proc) (h : ∀ i, p.files.count i = l.count i + r i) :
      ∃ p', l.foldlM (fun p n => p.unlink n) p = .ok p' ∧ (∀ i, p'.files.count i = r i) ∧
        p'.files.Sublist p.files := by
    induction l generalizing p with
    | nil => exact ⟨p, rfl, fun i => (h i).trans (Nat.zero_add _), .refl _⟩
    | cons n l ih =>
      have hcount (i : ℕ) : p.files.count i = [n].count i + (l.count i + r i) := by
        rw [h, ← Nat.add_assoc, ← List.count_append]
        rfl
      have hunlink : p.unlink n = .ok { p with files := p.files.erase n } :=
        if_pos (mem_of_count hcount)
      obtain ⟨p', hp', hfiles', hsub⟩ := ih { p with files := p.files.erase n }
        fun i => count_erase_self (hcount i)
      refine ⟨p', ?_, hfiles', hsub.trans List.erase_sublist⟩
      rw [List.foldlM_cons, hunlink]
      exact hp'
  exact hfold p.clean p hfiles

theorem shmReopen_false (name : Option ℕ) (p : Proc) :
    p.shmReopen false name = (.shut name, p) := by
  cases name <;> rfl

theorem shmReopen_true {n : ℕ} (h : n ∈ p.files) :
    p.shmReopen true (some n) = (.mapped n, p.register n) := if_pos ⟨rfl, h⟩

/-- What opening a file again gives. -/
theorem shmReopen_cases (opens : Bool) (name : Option ℕ) (p : Proc) :
    p.shmReopen opens name = (.shut name, p) ∨
      ∃ n, name = some n ∧ n ∈ p.files ∧ p.shmReopen opens name = (.mapped n, p.register n) := by
  cases name with
  | none => exact .inl rfl
  | some n =>
    unfold shmReopen
    dsimp only
    split_ifs with h
    · exact .inr ⟨n, rfl, h.2, rfl⟩
    · exact .inl rfl

/-- The mail that was sent is destroyed, and the file that comes back is opened. -/
theorem mailReceive_destroy {m : Mail} {p p' : Proc} (h : p.mailDestroy m = .ok p') (opens : Bool)
    (name : Option ℕ) : p.mailReceive true opens m name = .ok (p'.shmReopen opens name) := by
  unfold mailReceive
  rw [if_pos rfl, h]
  rfl

end Proc

/-- A reply brings its file where a write-back was done. -/
theorem Reply.files_done {r : Reply} (h : r.error = false ∧ r.wrback = true) :
    r.files = r.name.toList := by
  rw [Reply.files, h.1, h.2]
  rfl

theorem Reply.files_none {r : Reply} (h : ¬ (r.error = false ∧ r.wrback = true)) : r.files = [] := by
  rw [Reply.files, if_neg]
  simpa using h

/-! ## A mail that changes -/

section
variable {c d : MailCtx} {l : List MailCtx}

theorem filesOf_self : c.filesOf c.child = c.files := if_pos rfl

theorem filesOf_ne {b : ℕ} (h : c.child ≠ b) : c.filesOf b = [] := if_neg h

/-- A mail of a fetch child becomes another one, and the other children keep theirs. -/
theorem held_change (hc : c ∈ l) (hchild : d.child = c.child) (n : ℕ) :
    held MailCtx.files (d :: l.erase c) n + c.files.count n =
        held MailCtx.files l n + d.files.count n ∧
      held (MailCtx.filesOf c.child) (d :: l.erase c) n + c.files.count n =
        held (MailCtx.filesOf c.child) l n + d.files.count n ∧
      ∀ b, c.child ≠ b →
        held (MailCtx.filesOf b) (d :: l.erase c) n = held (MailCtx.filesOf b) l n := by
  refine ⟨held_replace hc, ?_, fun b hb => ?_⟩
  · have h := held_replace (f := MailCtx.filesOf c.child) (b := n) (y := d) hc
    rwa [filesOf_self, ← hchild, filesOf_self, hchild] at h
  · have h := held_replace (f := MailCtx.filesOf b) (b := n) (y := d) hc
    rwa [filesOf_ne hb, filesOf_ne (hchild ▸ hb)] at h

/-- A mail of a fetch child is freed. -/
theorem held_free (hc : c ∈ l) (n : ℕ) :
    held MailCtx.files l n = c.files.count n + held MailCtx.files (l.erase c) n ∧
      held (MailCtx.filesOf c.child) l n =
        c.files.count n + held (MailCtx.filesOf c.child) (l.erase c) n ∧
      ∀ b, c.child ≠ b →
        held (MailCtx.filesOf b) l n = held (MailCtx.filesOf b) (l.erase c) n := by
  refine ⟨held_erase hc, ?_, fun b hb => ?_⟩
  · rw [held_erase hc, filesOf_self]
  · rw [held_erase hc, filesOf_ne hb, List.count_nil, Nat.zero_add]

end

/-! ## A fetch child that ends -/

section
variable {s : Sys} {a n : ℕ}

theorem held_leave {b : ℕ} (l : List MailCtx) :
    held (MailCtx.filesOf b) (l.filter fun c => c.child != a) n =
      if b = a then 0 else held (MailCtx.filesOf b) l n := by
  split_ifs with hb
  · refine held_eq_zero fun c hc => filesOf_ne ?_
    simpa [hb] using (List.mem_filter.mp hc).2
  · have hpart := held_partition (f := MailCtx.filesOf b) (l := l) (b := n)
      fun c : MailCtx => c.child == a
    have hnone : held (MailCtx.filesOf b) (l.filter fun c => c.child == a) n = 0 := by
      refine held_eq_zero fun c hc => filesOf_ne ?_
      rw [beq_iff_eq.mp (List.mem_filter.mp hc).2]
      exact Ne.symm hb
    rw [hpart, hnone, Nat.zero_add]
    rfl

theorem held_leaveLost {b : ℕ} (l : List (ℕ × ℕ)) :
    held (lostFilesOf b) (l.filter fun e => e.1 != a) n =
      if b = a then 0 else held (lostFilesOf b) l n := by
  split_ifs with hb
  · refine held_eq_zero fun e he => if_neg ?_
    simpa [hb] using (List.mem_filter.mp he).2
  · have hpart := held_partition (f := lostFilesOf b) (l := l) (b := n)
      fun e : ℕ × ℕ => e.1 == a
    have hnone : held (lostFilesOf b) (l.filter fun e => e.1 == a) n = 0 := by
      refine held_eq_zero fun e he => if_neg ?_
      rw [beq_iff_eq.mp (List.mem_filter.mp he).2]
      exact Ne.symm hb
    rw [hpart, hnone, Nat.zero_add]
    rfl

/-- What a fetch child holds is held by it or by others. -/
theorem held_leaveAll (l : List MailCtx) :
    held MailCtx.files l n =
      held (MailCtx.filesOf a) l n + held MailCtx.files (l.filter fun c => c.child != a) n := by
  rw [held_filesOf]
  exact held_filter_ne _ _

theorem held_leaveAllLost (l : List (ℕ × ℕ)) :
    held lostFiles l n =
      held (lostFilesOf a) l n + held lostFiles (l.filter fun e => e.1 != a) n := by
  have hpart := held_partition (f := lostFiles) (l := l) (b := n) fun e : ℕ × ℕ => e.1 == a
  rw [hpart, held_lostFilesOf]
  exact congrArg (· + _) (congrArg (List.count n) List.map_eq_flatMap.symm)

end

/-! ## Steps of a fetch child -/

section
variable {s s' : Sys} {a : ℕ}

/-- A fetch child ends, after `p` of what it held is removed. -/
theorem Accounts.leave (h : Accounts s) {files : List ℕ} (hsub : files.Sublist s.files)
    (hfiles : ∀ n, s.files.count n = (s.clean a).count n + files.count n)
    (clean : ℕ → List ℕ) (hclean : ∀ b, a ≠ b → clean b = s.clean b) :
    Accounts (({ s with files := files, clean := clean } : Sys).leave a) where
  files n := by
    have hcount := hfiles n
    rw [h.clean a n, h.files n] at hcount
    have hmails := held_leaveAll (a := a) (n := n) s.mails
    have hlost := held_leaveAllLost (a := a) (n := n) s.lost
    have hreplies := held_partition (f := Reply.files) (l := s.replies) (b := n)
      fun r : Reply => r.child == a
    unfold Sys.holds at hcount
    show files.count n = _ + _ + _ + _ + List.count n (_ ++ _)
    rw [List.count_append, count_flatMap]
    show files.count n = held MailCtx.files (s.mails.filter fun c => c.child != a) n +
      held lostFiles (s.lost.filter fun e => e.1 != a) n + held Delivery.files s.deliveries n +
      held Reply.files (s.replies.filter fun r => r.child != a) n +
      (held Reply.files (s.replies.filter fun r => r.child == a) n + s.orphans.count n)
    have hne : held Reply.files (s.replies.filter fun r => r.child != a) n =
        held Reply.files (s.replies.filter fun r => !(r.child == a)) n := rfl
    omega
  nodup := h.nodup.sublist hsub
  clean b n := by
    show (Function.update clean a [] b).count n =
      held (MailCtx.filesOf b) (s.mails.filter fun c => c.child != a) n +
        held (lostFilesOf b) (s.lost.filter fun e => e.1 != a) n
    rw [held_leave, held_leaveLost]
    by_cases hb : b = a
    · rw [hb, Function.update_self, if_pos rfl, if_pos rfl]
      rfl
    · rw [Function.update_of_ne hb, if_neg hb, if_neg hb, hclean b (Ne.symm hb), h.clean]
  parent := h.parent
  running c hc := by
    obtain ⟨hmem, hne⟩ := List.mem_filter.mp hc
    show Function.update s.life a .gone c.child = .running
    rw [Function.update_of_ne (by simpa using hne)]
    exact h.running c hmem
  here r hr := by
    obtain ⟨hmem, hne⟩ := List.mem_filter.mp hr
    show Function.update s.life a .gone r.child ≠ .gone
    rw [Function.update_of_ne (by simpa using hne)]
    exact h.here r hmem

/-- A fetch child ends and does not clean up. -/
theorem Accounts.die (h : Accounts s) (a : ℕ) : Accounts (s.die a) where
  files n := by
    have hcount := h.files n
    have hmails := held_leaveAll (a := a) (n := n) s.mails
    have hlost := held_leaveAllLost (a := a) (n := n) s.lost
    have hreplies := held_partition (f := Reply.files) (l := s.replies) (b := n)
      fun r : Reply => r.child == a
    have hne : held Reply.files (s.replies.filter fun r => r.child != a) n =
        held Reply.files (s.replies.filter fun r => !(r.child == a)) n := rfl
    have hself : held (MailCtx.filesOf a) s.mails n =
        held MailCtx.files (s.mails.filter fun c => c.child == a) n := held_filesOf s.mails
    have hselfLost := held_lostFilesOf (a := a) (n := n) s.lost
    unfold Sys.holds at hcount
    show s.files.count n = held MailCtx.files (s.mails.filter fun c => c.child != a) n +
      held lostFiles (s.lost.filter fun e => e.1 != a) n + held Delivery.files s.deliveries n +
      held Reply.files (s.replies.filter fun r => r.child != a) n +
      List.count n ((s.mails.filter fun c => c.child == a).flatMap MailCtx.files ++
        ((s.lost.filter fun e => e.1 == a).map Prod.snd ++
          ((s.replies.filter fun r => r.child == a).flatMap Reply.files ++ s.orphans)))
    rw [List.count_append, List.count_append, List.count_append, count_flatMap, count_flatMap]
    omega
  nodup := h.nodup
  clean b n := by
    show (Function.update s.clean a [] b).count n =
      held (MailCtx.filesOf b) (s.mails.filter fun c => c.child != a) n +
        held (lostFilesOf b) (s.lost.filter fun e => e.1 != a) n
    rw [held_leave, held_leaveLost]
    by_cases hb : b = a
    · rw [hb, Function.update_self, if_pos rfl, if_pos rfl]
      rfl
    · rw [Function.update_of_ne hb, if_neg hb, if_neg hb, h.clean]
  parent := h.parent
  running c hc := by
    obtain ⟨hmem, hne⟩ := List.mem_filter.mp hc
    show Function.update s.life a .gone c.child = .running
    rw [Function.update_of_ne (by simpa using hne)]
    exact h.running c hmem
  here r hr := by
    obtain ⟨hmem, hne⟩ := List.mem_filter.mp hr
    show Function.update s.life a .gone r.child ≠ .gone
    rw [Function.update_of_ne (by simpa using hne)]
    exact h.here r hmem

/-- Files are moved about in a fetch child. -/
theorem Accounts.move (h : Accounts s) (files : List ℕ) (clean : ℕ → List ℕ)
    (mails : List MailCtx) (replies : List Reply) (lost : List (ℕ × ℕ)) (orphans : List ℕ)
    (hnodup : files.Nodup)
    (hfiles : ∀ n, files.count n + held MailCtx.files s.mails n + held lostFiles s.lost n +
        held Reply.files s.replies n + s.orphans.count n =
      s.files.count n + held MailCtx.files mails n + held lostFiles lost n +
        held Reply.files replies n + orphans.count n)
    (hclean : ∀ b n, (clean b).count n =
      held (MailCtx.filesOf b) mails n + held (lostFilesOf b) lost n)
    (hrunning : ∀ c ∈ mails, s.life c.child = .running) (hhere : ∀ r ∈ replies, r ∈ s.replies) :
    Accounts { s with files, clean, mails, replies, lost, orphans } where
  files n := by
    have hbefore := h.files n
    have hafter := hfiles n
    unfold Sys.holds at hbefore
    show files.count n = held MailCtx.files mails n + held lostFiles lost n +
      held Delivery.files s.deliveries n + held Reply.files replies n + orphans.count n
    omega
  nodup := hnodup
  clean := hclean
  parent := h.parent
  running := hrunning
  here r hr := h.here r (hhere r hr)

variable {c c' : MailCtx}

theorem Accounts.running_change (h : Accounts s) (hc : c ∈ s.mails) (hchild : c'.child = c.child) :
    ∀ d ∈ c' :: s.mails.erase c, s.life d.child = .running := by
  intro d hd
  rcases List.mem_cons.mp hd with rfl | hd
  · rw [hchild]
    exact h.running c hc
  · exact h.running d (List.mem_of_mem_erase hd)

/-- A mail of a fetch child changes, but not its file. -/
theorem Accounts.keep {d : MailCtx} (h : Accounts s) (hc : c ∈ s.mails) (hchild : d.child = c.child)
    (hmail : d.mail = c.mail) : Accounts { s with mails := d :: s.mails.erase c } := by
  have hfiles : d.files = c.files := congrArg Mail.files hmail
  refine h.move s.files s.clean _ s.replies s.lost s.orphans h.nodup (fun n => ?_) (fun b n => ?_)
    (h.running_change hc hchild) (fun _ hr => hr)
  · have hchange := (held_change hc hchild n).1
    rw [hfiles] at hchange
    omega
  · obtain ⟨-, hself, hother⟩ := held_change hc hchild n
    rw [hfiles] at hself
    rw [h.clean b n]
    by_cases hb : c.child = b
    · rw [hb] at hself
      omega
    · rw [hother b hb]

theorem Accounts.opens (h : Accounts s) {n : ℕ} (hrunning : s.life a = .running)
    (hn : n ∉ s.files) :
    Accounts { s.setFetch a ((s.ofFetch a).mailOpen n) with
      mails := { child := a, mail := .mapped n } :: s.mails } := by
  refine h.move (n :: s.files) (Function.update s.clean a (n :: s.clean a)) _ s.replies s.lost
    s.orphans (List.nodup_cons.mpr ⟨hn, h.nodup⟩) (fun i => ?_) (fun b i => ?_) ?_ (fun _ hr => hr)
  · rw [held_cons]
    show _ = _ + ([n].count i + _) + _ + _ + _
    rw [List.count_cons, List.count_singleton]
    omega
  · rw [held_cons]
    by_cases hb : b = a
    · rw [hb, Function.update_self, ← List.singleton_append, List.count_append, h.clean]
      show _ = (MailCtx.filesOf a ⟨a, .mapped n, false, 0, false⟩).count i + _ + _
      rw [MailCtx.filesOf, if_pos rfl, Nat.add_assoc]
      rfl
    · rw [Function.update_of_ne hb, h.clean, filesOf_ne (Ne.symm hb), List.count_nil, Nat.zero_add]
  · exact List.forall_mem_cons.mpr ⟨hrunning, h.running⟩

/-- `mail_resize` fails, and the file stays in the list. -/
theorem Accounts.resizeFails (h : Accounts s) (hc : c ∈ s.mails) {n : ℕ}
    (hn : c.mail = .mapped n) :
    Accounts { s with
      mails := { c with mail := .shut (some n) } :: s.mails.erase c
      lost := (c.child, n) :: s.lost } := by
  have hfiles : c.files = [n] := congrArg Mail.files hn
  refine h.move s.files s.clean _ s.replies ((c.child, n) :: s.lost) s.orphans h.nodup
    (fun i => ?_) (fun b i => ?_) (h.running_change hc rfl) (fun _ hr => hr)
  · have hchange := (held_change (d := { c with mail := .shut (some n) }) hc rfl i).1
    have hnone : List.count i (MailCtx.files { c with mail := .shut (some n) }) = 0 := rfl
    rw [hfiles] at hchange
    rw [held_cons (f := lostFiles)]
    show _ = _ + _ + ([n].count i + _) + _ + _
    omega
  · obtain ⟨-, hself, hother⟩ := held_change (d := { c with mail := .shut (some n) }) hc rfl i
    have hnone : List.count i (MailCtx.files { c with mail := .shut (some n) }) = 0 := rfl
    rw [hfiles] at hself
    rw [h.clean b i, held_cons (f := lostFilesOf b), lostFilesOf]
    by_cases hb : c.child = b
    · subst hb
      rw [if_pos rfl]
      show _ = _ + ([n].count i + _)
      omega
    · rw [if_neg hb, hother b hb, List.count_nil, Nat.zero_add]

/-- A mail of a fetch child can be destroyed. -/
theorem Accounts.free (h : Accounts s) (hc : c ∈ s.mails) :
    ∃ p, (s.ofFetch c.child).mailDestroy c.mail = .ok p ∧
      Accounts { s.setFetch c.child p with mails := s.mails.erase c } := by
  obtain ⟨p, hp, hclean, hfiles, hsub⟩ := Proc.mailDestroy_ok (p := s.ofFetch c.child) (m := c.mail)
    (k := fun i => held (MailCtx.filesOf c.child) (s.mails.erase c) i +
      held (lostFilesOf c.child) s.lost i)
    (r := fun i => held MailCtx.files (s.mails.erase c) i + held lostFiles s.lost i +
      held Delivery.files s.deliveries i + held Reply.files s.replies i + s.orphans.count i)
    (fun i => by
      have hfree := (held_free hc i).2.1
      have hcount := h.clean c.child i
      show (s.clean c.child).count i = c.files.count i + _
      omega)
    (fun i => by
      have hfree := (held_free hc i).1
      have hcount := h.files i
      unfold Sys.holds at hcount
      show s.files.count i = c.files.count i + _
      omega)
  refine ⟨p, hp, h.move p.files (Function.update s.clean c.child p.clean) _ s.replies s.lost
    s.orphans (h.nodup.sublist hsub) (fun i => ?_) (fun b i => ?_)
    (fun d hd => h.running d (List.mem_of_mem_erase hd)) (fun _ hr => hr)⟩
  · have hcount := h.files i
    unfold Sys.holds at hcount
    rw [hfiles]
    omega
  · by_cases hb : b = c.child
    · rw [hb, Function.update_self, hclean]
    · rw [Function.update_of_ne hb, h.clean, (held_free hc i).2.2 b (Ne.symm hb)]

/-- A file is there and nobody has it. -/
theorem Accounts.unregistered (h : Accounts s) {n : ℕ} (hn : n ∉ s.files) :
    Accounts { s with files := n :: s.files, orphans := n :: s.orphans } := by
  refine h.move (n :: s.files) s.clean s.mails s.replies s.lost (n :: s.orphans)
    (List.nodup_cons.mpr ⟨hn, h.nodup⟩) (fun i => ?_) h.clean h.running (fun _ hr => hr)
  rw [List.count_cons, List.count_cons]
  omega

/-- A mail is taken from the list, and its file is not removed yet. -/
theorem Accounts.deregistered (h : Accounts s) (hc : c ∈ s.mails) {n : ℕ} (hn : c.mail = .mapped n) :
    ∃ p, (s.ofFetch c.child).deregister n = .ok p ∧
      Accounts { s.setFetch c.child p with
        mails := s.mails.erase c
        orphans := n :: s.orphans } := by
  have hmail : c.files = [n] := congrArg Mail.files hn
  obtain ⟨p, hp, hfiles, hclean⟩ := Proc.mailClose_ok (p := s.ofFetch c.child) (m := .mapped n)
    (k := fun i => held (MailCtx.filesOf c.child) (s.mails.erase c) i +
      held (lostFilesOf c.child) s.lost i) fun i => by
      have hfree := (held_free hc i).2.1
      have hcount := h.clean c.child i
      rw [hmail] at hfree
      show (s.clean c.child).count i = [n].count i + _
      omega
  refine ⟨p, hp, h.move p.files (Function.update s.clean c.child p.clean) _ s.replies s.lost
    (n :: s.orphans) ?_ (fun i => ?_) (fun b i => ?_)
    (fun d hd => h.running d (List.mem_of_mem_erase hd)) (fun _ hr => hr)⟩
  · rw [hfiles]
    exact h.nodup
  · have hfree := (held_free hc i).1
    rw [hmail] at hfree
    rw [hfiles, ← List.singleton_append (l := s.orphans), List.count_append]
    show s.files.count i + _ + _ + _ + _ = _
    omega
  · by_cases hb : b = c.child
    · rw [hb, Function.update_self, hclean]
    · rw [Function.update_of_ne hb, h.clean, (held_free hc i).2.2 b (Ne.symm hb)]

/-- The file that a reply brings is in the directory. -/
theorem Accounts.mem_of_reply (h : Accounts s) {r : Reply} (hr : r ∈ s.replies) {n : ℕ}
    (hn : n ∈ r.files) : n ∈ s.files := by
  have hheld : 0 < held Reply.files s.replies n := held_pos hr hn
  have hcount := h.files n
  unfold Sys.holds at hcount
  exact List.count_pos_iff.mp (by omega)

/-- A fetch child reads a reply that it does not take a file from. -/
theorem Accounts.read (h : Accounts s) {r : Reply} (hr : r ∈ s.replies) :
    Accounts { s with replies := s.replies.erase r, orphans := r.files ++ s.orphans } := by
  refine h.move s.files s.clean s.mails _ s.lost _ h.nodup (fun i => ?_) h.clean h.running
    (fun _ hr' => List.mem_of_mem_erase hr')
  rw [held_erase hr, List.count_append]
  omega

/-- The mail that was written back takes the place of the one that was sent. -/
theorem Accounts.takeOver (h : Accounts s) (hc : c ∈ s.mails) {r : Reply} (hr : r ∈ s.replies)
    (hfiles : r.files = r.name.toList) (opens : Bool) :
    ∃ m p, (s.ofFetch c.child).mailReceive true opens c.mail r.name = .ok (m, p) ∧
      Accounts { s.setFetch c.child p with
        replies := s.replies.erase r
        mails := { c with mail := m, msgid := false } :: s.mails.erase c
        orphans := (if m.files = [] then r.files else []) ++ s.orphans } := by
  obtain ⟨p₁, hp₁, hfree⟩ := h.free hc
  have hcount (i : ℕ) : p₁.files.count i = held MailCtx.files (s.mails.erase c) i +
      held lostFiles s.lost i + held Delivery.files s.deliveries i + held Reply.files s.replies i +
        s.orphans.count i := hfree.files i
  have hclean (b i : ℕ) : (Function.update s.clean c.child p₁.clean b).count i =
      held (MailCtx.filesOf b) (s.mails.erase c) i + held (lostFilesOf b) s.lost i :=
    hfree.clean b i
  have hreply (i : ℕ) : held Reply.files s.replies i =
      r.files.count i + held Reply.files (s.replies.erase r) i := held_erase hr
  have hone (m : Mail) (b i : ℕ) :
      held (MailCtx.filesOf b) ({ c with mail := m, msgid := false } :: s.mails.erase c) i =
        (if c.child = b then m.files.count i else 0) +
          held (MailCtx.filesOf b) (s.mails.erase c) i := by
    rw [held_cons, MailCtx.filesOf]
    split_ifs <;> rfl
  have hall (m : Mail) (i : ℕ) :
      held MailCtx.files ({ c with mail := m, msgid := false } :: s.mails.erase c) i =
        m.files.count i + held MailCtx.files (s.mails.erase c) i := held_cons
  have hreceive := Proc.mailReceive_destroy hp₁ opens r.name
  rcases Proc.shmReopen_cases opens r.name p₁ with hshut | ⟨n, hname, hmem, hmapped⟩
  · refine ⟨.shut r.name, p₁, ?_, ?_⟩
    · rw [hreceive, hshut]
    · refine h.move p₁.files (Function.update s.clean c.child p₁.clean) _ _ s.lost _ hfree.nodup
        (fun i => ?_) (fun b i => ?_) (h.running_change hc rfl)
        (fun _ hr' => List.mem_of_mem_erase hr')
      · have hbefore := h.files i
        have hafter := hcount i
        have hnone : (Mail.shut r.name).files = [] := rfl
        unfold Sys.holds at hbefore
        rw [hall, hreply, if_pos hnone, List.count_append]
        show _ = _ + (0 + _) + _ + _ + _
        omega
      · rw [hone, hclean]
        split_ifs <;> simp [Mail.files]
  · refine ⟨.mapped n, p₁.register n, ?_, ?_⟩
    · rw [hreceive, hmapped]
    · refine h.move p₁.files (Function.update s.clean c.child (n :: p₁.clean)) _ _ s.lost _
        hfree.nodup (fun i => ?_) (fun b i => ?_) (h.running_change hc rfl)
        (fun _ hr' => List.mem_of_mem_erase hr')
      · have hbefore := h.files i
        have hafter := hcount i
        have hsome : (Mail.mapped n).files ≠ [] := List.cons_ne_nil n []
        unfold Sys.holds at hbefore
        rw [hall, hreply, hfiles, hname, if_neg hsome, List.nil_append]
        show _ + _ + _ + ([n].count i + _) + _ = _ + ([n].count i + _) + _ + _ + _
        omega
      · rw [hone]
        have hkeep := hclean b i
        by_cases hb : c.child = b
        · subst hb
          rw [Function.update_self] at hkeep ⊢
          rw [if_pos rfl, ← List.singleton_append, List.count_append, hkeep, Nat.add_assoc]
          rfl
        · rw [Function.update_of_ne (Ne.symm hb)] at hkeep ⊢
          rw [if_neg hb, hkeep, Nat.zero_add]

/-- The end of `fetch_account` can destroy the mails. -/
theorem Accounts.finish (h : Accounts s) (a : ℕ) :
    ∃ p, (s.mails.filter fun c => c.child == a).foldlM (fun p c => p.mailDestroy c.mail)
        (s.ofFetch a) = .ok p ∧
      ∀ life : ℕ → Life, (∀ b, b ≠ a → life b = s.life b) → life a ≠ .gone →
        Accounts { s.setFetch a p with
          life := life
          mails := s.mails.filter fun c => c.child != a } := by
  obtain ⟨p, hp, hclean, hfiles, hsub⟩ :=
    Proc.destroyAll_ok (p := s.ofFetch a) (k := fun i => held (lostFilesOf a) s.lost i)
      (r := fun i => held MailCtx.files (s.mails.filter fun c => c.child != a) i +
        held lostFiles s.lost i + held Delivery.files s.deliveries i +
          held Reply.files s.replies i + s.orphans.count i)
      (s.mails.filter fun c => c.child == a)
      (fun i => by
        rw [← held_filesOf]
        exact h.clean a i)
      (fun i => by
        have hcount := h.files i
        have hpart := held_leaveAll (a := a) (n := i) s.mails
        rw [held_filesOf] at hpart
        unfold Sys.holds at hcount
        show s.files.count i = _
        omega)
  refine ⟨p, hp, fun life hother hself => ?_⟩
  have hmove : Accounts { s with
      files := p.files
      clean := Function.update s.clean a p.clean
      mails := s.mails.filter fun c => c.child != a } := by
    refine h.move p.files _ _ s.replies s.lost s.orphans (h.nodup.sublist hsub) (fun i => ?_)
      (fun b i => ?_) (fun c hc => h.running c (List.mem_filter.mp hc).1) (fun _ hr => hr)
    · have hcount := h.files i
      have hafter := hfiles i
      unfold Sys.holds at hcount
      omega
    · rw [held_leave]
      by_cases hb : b = a
      · rw [hb, Function.update_self, if_pos rfl, hclean, Nat.zero_add]
      · rw [Function.update_of_ne hb, if_neg hb, h.clean]
  refine ⟨hmove.files, hmove.nodup, hmove.clean, hmove.parent, fun c hc => ?_, fun r hr => ?_⟩
  · show life c.child = .running
    rw [hother _ (by simpa using (List.mem_filter.mp hc).2)]
    exact hmove.running c hc
  · show life r.child ≠ .gone
    by_cases hr' : r.child = a
    · rwa [hr']
    · rw [hother _ hr']
      exact h.here r hr

/-- `cleanup_check` finds the list empty if and only if no file was lost. -/
theorem Accounts.exit (h : Accounts s) (hfinished : s.life a ≠ .running) :
    s.clean a = [] ↔ ∀ e ∈ s.lost, e.1 ≠ a := by
  have hnone (n : ℕ) : held (MailCtx.filesOf a) s.mails n = 0 := by
    refine held_eq_zero fun c hc => filesOf_ne fun hchild => hfinished ?_
    rw [← hchild]
    exact h.running c hc
  constructor
  · rintro hnil ⟨b, n⟩ he rfl
    have hcount := h.clean b n
    have hpos : 0 < held (lostFilesOf b) s.lost n :=
      held_pos he (by rw [lostFilesOf, if_pos rfl]; exact List.mem_singleton_self n)
    rw [hnil, hnone, List.count_nil] at hcount
    omega
  · intro hlost
    refine List.eq_nil_iff_forall_not_mem.mpr fun n hn => ?_
    have hcount := h.clean a n
    have hempty : held (lostFilesOf a) s.lost n = 0 :=
      held_eq_zero fun e he => if_neg (hlost e he)
    rw [hnone, hempty] at hcount
    exact Nat.ne_of_gt (List.count_pos_iff.mpr hn) hcount

/-- A fetch child that gets a `SIGTERM` can remove its files. -/
theorem Accounts.term (h : Accounts s) (a : ℕ) :
    ∃ p, (s.ofFetch a).purge = .ok p ∧ Accounts ((s.setFetch a p).leave a) := by
  obtain ⟨p, hp, hfiles, hsub⟩ := Proc.purge_ok (p := s.ofFetch a)
    (r := fun i => s.holds i + s.orphans.count i - (s.clean a).count i) fun i => by
      have hcount := h.files i
      have hclean := h.clean a i
      have hmails := held_leaveAll (a := a) (n := i) s.mails
      have hlost := held_leaveAllLost (a := a) (n := i) s.lost
      unfold Sys.holds at hcount ⊢
      show s.files.count i = (s.clean a).count i + _
      omega
  refine ⟨p, hp, h.leave hsub (fun i => ?_) _ fun b hb => Function.update_of_ne (Ne.symm hb) _ _⟩
  have hcount := h.files i
  have hclean := h.clean a i
  have hmails := held_leaveAll (a := a) (n := i) s.mails
  have hlost := held_leaveAllLost (a := a) (n := i) s.lost
  rw [hfiles]
  unfold Sys.holds at hcount ⊢
  omega

end

/-! ## Steps of the parent -/

/-- The accounts, and that only `cleanup_check` was fatal, in a fetch child that has lost a file. -/
structure Good (s : Sys) : Prop extends Accounts s where
  fatals : ∀ e ∈ s.fatals, ∃ a ∈ s.resized, e = (.fetch a, .listNotEmpty)
  resized : ∀ e ∈ s.lost, e.1 ∈ s.resized

/-- The parent has files, and names in its list, that are about to go somewhere. -/
def InHand (s : Sys) (files clean : List ℕ) : Prop :=
  Good { s with orphans := files ++ s.orphans, stale := clean ++ s.stale }

section
variable {s : Sys} {files clean : List ℕ} {n : ℕ}

/-- Files are moved about in the parent. -/
theorem InHand.move (h : InHand s files clean) {files' clean' : List ℕ}
    (parentFiles parentClean : List ℕ) (deliveries : List Delivery) (hnodup : parentFiles.Nodup)
    (hfiles : ∀ i, parentFiles.count i + held Delivery.files s.deliveries i + files.count i =
      s.files.count i + held Delivery.files deliveries i + files'.count i)
    (hclean : ∀ i, parentClean.count i + held Delivery.mapped s.deliveries i + clean.count i =
      s.parentClean.count i + held Delivery.mapped deliveries i + clean'.count i) :
    InHand { s with files := parentFiles, parentClean, deliveries } files' clean' where
  files i := by
    have hbefore : s.files.count i = held MailCtx.files s.mails i + held lostFiles s.lost i +
        held Delivery.files s.deliveries i + held Reply.files s.replies i +
          (files ++ s.orphans).count i := h.files i
    have hafter := hfiles i
    rw [List.count_append] at hbefore
    show parentFiles.count i = held MailCtx.files s.mails i + held lostFiles s.lost i +
      held Delivery.files deliveries i + held Reply.files s.replies i +
        (files' ++ s.orphans).count i
    rw [List.count_append]
    omega
  nodup := hnodup
  clean := h.clean
  parent i := by
    have hbefore : s.parentClean.count i = held Delivery.mapped s.deliveries i +
        (clean ++ s.stale).count i := h.parent i
    have hafter := hclean i
    rw [List.count_append] at hbefore
    show parentClean.count i = held Delivery.mapped deliveries i + (clean' ++ s.stale).count i
    rw [List.count_append]
    omega
  running := h.running
  here := h.here
  fatals := h.fatals
  resized := h.resized

/-- A delivery is taken from the table. -/
theorem Good.take (h : Good s) {d : Delivery} (hd : d ∈ s.deliveries) :
    InHand { s with deliveries := s.deliveries.erase d } d.files d.mapped := by
  have hhand : InHand s [] [] := h
  refine hhand.move s.files s.parentClean (s.deliveries.erase d) h.nodup (fun i => ?_) (fun i => ?_)
  · rw [held_erase hd, List.count_nil]
    omega
  · rw [held_erase hd, List.count_nil]
    omega

/-- A delivery is put into the table. -/
theorem InHand.put {d : Delivery} (h : InHand s d.files d.mapped) :
    Good { s with deliveries := d :: s.deliveries } := by
  have hput : InHand { s with deliveries := d :: s.deliveries } [] [] := by
    refine h.move s.files s.parentClean (d :: s.deliveries) h.nodup (fun i => ?_) (fun i => ?_)
    · rw [held_cons, List.count_nil]
      omega
    · rw [held_cons, List.count_nil]
      omega
  exact hput

theorem InHand.mailClose (h : InHand s files (n :: clean)) :
    ∃ p, s.ofParent.mailClose (.mapped n) = .ok p ∧ p.files = s.files ∧
      InHand (s.setParent p) files clean := by
  obtain ⟨p, hp, hfiles, hclean⟩ := Proc.mailClose_ok (p := s.ofParent) (m := .mapped n)
    (k := fun i => held Delivery.mapped s.deliveries i + (clean ++ s.stale).count i) fun i => by
      refine (h.parent i).trans ?_
      show held Delivery.mapped s.deliveries i + (n :: (clean ++ s.stale)).count i = _
      rw [← List.singleton_append, List.count_append]
      show _ = [n].count i + _
      omega
  refine ⟨p, hp, hfiles, h.move p.files p.clean s.deliveries ?_ (fun i => ?_) (fun i => ?_)⟩
  · rw [hfiles]
    exact h.nodup
  · rw [hfiles]
    rfl
  · have hbefore : s.parentClean.count i = held Delivery.mapped s.deliveries i +
        (n :: (clean ++ s.stale)).count i := h.parent i
    rw [List.count_cons, List.count_append] at hbefore
    rw [hclean, List.count_append, List.count_cons]
    omega

theorem InHand.mailDestroy (h : InHand s (n :: files) (n :: clean)) :
    ∃ p, s.ofParent.mailDestroy (.mapped n) = .ok p ∧ InHand (s.setParent p) files clean := by
  have hfiles (i : ℕ) : s.files.count i = held MailCtx.files s.mails i + held lostFiles s.lost i +
      held Delivery.files s.deliveries i + held Reply.files s.replies i +
        (n :: (files ++ s.orphans)).count i := h.files i
  have hclean (i : ℕ) : s.parentClean.count i = held Delivery.mapped s.deliveries i +
      (n :: (clean ++ s.stale)).count i := h.parent i
  simp only [← List.singleton_append (l := _ ++ _), List.count_append] at hfiles hclean
  obtain ⟨p, hp, hclean', hfiles', hsub⟩ := Proc.mailDestroy_ok (p := s.ofParent) (m := .mapped n)
    (k := fun i => held Delivery.mapped s.deliveries i + (clean.count i + s.stale.count i))
    (r := fun i => held MailCtx.files s.mails i + held lostFiles s.lost i +
      held Delivery.files s.deliveries i + held Reply.files s.replies i +
        (files.count i + s.orphans.count i))
    (fun i => by
      show s.parentClean.count i = [n].count i + _
      have := hclean i
      omega)
    (fun i => by
      show s.files.count i = [n].count i + _
      have := hfiles i
      omega)
  refine ⟨p, hp, h.move p.files p.clean s.deliveries (h.nodup.sublist hsub) (fun i => ?_)
    (fun i => ?_)⟩
  · rw [hfiles', ← List.singleton_append, List.count_append, hfiles]
    omega
  · rw [hclean', ← List.singleton_append, List.count_append, hclean]
    omega

theorem InHand.register (h : InHand s files clean) (n : ℕ) :
    InHand (s.setParent (s.ofParent.register n)) files (n :: clean) := by
  refine h.move s.files (n :: s.parentClean) s.deliveries h.nodup (fun i => rfl) (fun i => ?_)
  rw [List.count_cons, List.count_cons]
  omega

theorem InHand.mailOpen (h : InHand s files clean) (hn : n ∉ s.files) :
    InHand (s.setParent (s.ofParent.mailOpen n)) (n :: files) (n :: clean) := by
  refine h.move (n :: s.files) (n :: s.parentClean) s.deliveries
    (List.nodup_cons.mpr ⟨hn, h.nodup⟩) (fun i => ?_) (fun i => ?_)
  · rw [List.count_cons, List.count_cons]
    omega
  · rw [List.count_cons, List.count_cons]
    omega

/-- A reply takes its file along. -/
theorem InHand.send {r : Reply} (h : InHand s (r.files ++ files) clean) :
    InHand (s.send r) files clean := by
  have hcount (i : ℕ) : s.files.count i = held MailCtx.files s.mails i + held lostFiles s.lost i +
      held Delivery.files s.deliveries i + held Reply.files s.replies i +
        ((r.files ++ files) ++ s.orphans).count i := h.files i
  simp only [List.count_append] at hcount
  unfold Sys.send
  split_ifs with hgone
  · refine ⟨⟨fun i => ?_, h.nodup, h.clean, h.parent, h.running, h.here⟩, h.fatals, h.resized⟩
    show s.files.count i = held MailCtx.files s.mails i + held lostFiles s.lost i +
      held Delivery.files s.deliveries i + held Reply.files s.replies i +
        (files ++ (r.files ++ s.orphans)).count i
    rw [List.count_append, List.count_append, hcount]
    omega
  · refine ⟨⟨fun i => ?_, h.nodup, h.clean, h.parent, h.running, ?_⟩, h.fatals, h.resized⟩
    · show s.files.count i = held MailCtx.files s.mails i + held lostFiles s.lost i +
        held Delivery.files s.deliveries i + held Reply.files (r :: s.replies) i +
          (files ++ s.orphans).count i
      rw [List.count_append, held_cons, hcount]
      omega
    · exact List.forall_mem_cons.mpr ⟨hgone, h.here⟩

/-- A name is left in the list of the parent. -/
theorem InHand.stale (h : InHand s files (n :: clean)) :
    InHand { s with stale := n :: s.stale } files clean := by
  refine ⟨⟨h.files, h.nodup, h.clean, fun i => ?_, h.running, h.here⟩, h.fatals, h.resized⟩
  refine (h.parent i).trans (congrArg (held Delivery.mapped s.deliveries i + ·) ?_)
  exact (List.perm_middle : (clean ++ n :: s.stale).Perm _).symm.count_eq i

/-- A file is left by everyone. -/
theorem InHand.orphan (h : InHand s (n :: files) clean) :
    InHand { s with orphans := n :: s.orphans } files clean := by
  refine ⟨⟨fun i => ?_, h.nodup, h.clean, h.parent, h.running, h.here⟩, h.fatals, h.resized⟩
  refine (h.files i).trans (congrArg (held MailCtx.files s.mails i + held lostFiles s.lost i +
    held Delivery.files s.deliveries i + held Reply.files s.replies i + ·) ?_)
  exact (List.perm_middle : (files ++ n :: s.orphans).Perm _).symm.count_eq i

theorem InHand.perm (h : InHand s files clean) {files' clean' : List ℕ} (hfiles : files.Perm files')
    (hclean : clean.Perm clean') : InHand s files' clean' := by
  refine h.move s.files s.parentClean s.deliveries h.nodup (fun i => ?_) (fun i => ?_)
  · rw [hfiles.count_eq i]
  · rw [hclean.count_eq i]

theorem InHand.sendClose {d : Delivery} {error wrback : Bool} {m : Mail}
    (h : InHand s (Reply.files ⟨d.child, d.idx, error, wrback, m.name⟩ ++ files)
      (m.files ++ clean)) :
    InHand (s.sendClose d error wrback m) files clean := by
  unfold Sys.sendClose
  cases m with
  | shut name => exact h.send
  | mapped n =>
    obtain ⟨p, hp, -, hclose⟩ := InHand.mailClose h.send
    dsimp only
    rw [hp]
    exact hclose

theorem InHand.good (h : InHand s [] []) : Good s := h

theorem Good.parentFetch (h : Good s) (q : Request) {calls : Calls}
    (hnew : ∀ n ∈ calls.created, n ∉ s.files) : Good (s.parentFetch q calls) := by
  have herror : q.error.files = [] := rfl
  have hstart : InHand { s with requests := s.requests.erase q } [] [] :=
    ⟨⟨h.files, h.nodup, h.clean, h.parent, h.running, h.here⟩, h.fatals, h.resized⟩
  have hsend {s : Sys} (h : InHand s [] []) : Good (s.send q.error) :=
    InHand.good (InHand.send (by rwa [herror]))
  unfold Sys.parentFetch
  dsimp only
  rcases Proc.shmReopen_cases calls.opens q.name
    (Sys.ofParent { s with requests := s.requests.erase q }) with hshut | ⟨n, -, -, hmapped⟩
  · rw [hshut]
    exact hsend hstart
  · rw [hmapped]
    have hmail := hstart.register n
    dsimp only
    by_cases hwrback : q.wrback = true
    · rw [if_pos hwrback]
      cases hcreated : calls.created with
      | none => exact hsend hmail.stale
      | some new =>
        have hopen := hmail.mailOpen (hnew new hcreated)
        dsimp only
        split_ifs
        · exact InHand.put (d := ⟨q.child, q.idx, n, some new⟩) (hopen.perm (.refl _) (.swap _ _ _))
        · obtain ⟨p, hp, hdestroy⟩ := hopen.mailDestroy
          rw [hp]
          exact hsend hdestroy.stale
    · rw [if_neg hwrback]
      exact InHand.put (d := ⟨q.child, q.idx, n, none⟩) hmail

/-- The parent opens the mail that was written back again. -/
theorem Good.receive (h : Good s) {d : Delivery} (hd : d ∈ s.deliveries) {new : ℕ}
    (hwr : d.wrMail = some new) (opens : Bool) :
    ∃ p : Proc, (do
        let p ← (Sys.ofParent { s with deliveries := s.deliveries.erase d }).mailClose (.mapped new)
        p.mailReceive false opens (.mapped d.mail) (some new)) =
          .ok (p.shmReopen opens (some new)) ∧
      new ∈ p.files ∧
        InHand (({ s with deliveries := s.deliveries.erase d } : Sys).setParent p) [new] [] := by
  have htake := h.take hd
  rw [Delivery.files, Delivery.mapped, hwr] at htake
  have hboth := htake.perm (.refl _) (.swap _ _ _)
  obtain ⟨p₁, hp₁, hfiles₁, hclose₁⟩ := InHand.mailClose hboth
  obtain ⟨p₂, hp₂, hfiles₂, hclose₂⟩ := InHand.mailClose hclose₁
  refine ⟨p₂, ?_, ?_, hclose₂⟩
  · rw [hp₁]
    show (do
      let p ← p₁.mailClose (.mapped d.mail)
      return p.shmReopen opens (some new)) = _
    rw [show p₁.mailClose (.mapped d.mail) = .ok p₂ from hp₂]
    rfl
  · have hheld : 0 < held Delivery.files s.deliveries new := by
      refine held_pos hd ?_
      rw [Delivery.files, hwr]
      exact List.mem_singleton_self new
    have hcount := h.files new
    unfold Sys.holds at hcount
    rw [hfiles₂]
    show new ∈ p₁.files
    rw [hfiles₁]
    show new ∈ s.files
    exact List.count_pos_iff.mp (by omega)

theorem Good.parentDeliver (h : Good s) {d : Delivery} (hd : d ∈ s.deliveries)
    (error opens : Bool) : Good (s.parentDeliver d error opens) := by
  have htake := h.take hd
  unfold Sys.parentDeliver
  dsimp only
  cases hwr : d.wrMail with
  | none =>
    refine InHand.good (InHand.sendClose ?_)
    rw [Delivery.files, Delivery.mapped, hwr] at htake
    cases error <;> exact htake
  | some new =>
    rw [Delivery.files, Delivery.mapped, hwr] at htake
    have hboth := htake.perm (.refl _) (.swap _ _ _)
    dsimp only
    split_ifs
    · obtain ⟨p, hp, hdestroy⟩ := InHand.mailDestroy hboth
      rw [hp]
      exact InHand.good (InHand.sendClose hdestroy)
    · obtain ⟨p, hreceive, -, hhand⟩ := h.receive hd hwr opens
      rw [hreceive]
      rcases Proc.shmReopen_cases opens (some new) p with hshut | ⟨n, hname, -, hmapped⟩
      · rw [hshut]
        exact InHand.good (InHand.sendClose hhand.orphan)
      · rw [hmapped, ← Option.some_inj.mp hname]
        exact InHand.good (InHand.sendClose (hhand.register new))

end

end Fdm.Shm
