import Fdm.Locking.Calls
import Mathlib.Data.List.Perm.Subperm

/-!
# No mail is lost

The invariant of the runs in which nobody looks at the file before it has its locks
(`Safe`), call by call.

`openlock` and `fetch_mbox_state_open` do look: the fetcher takes the size from `stat`
before it has the locks, and a file that is opened may have been replaced when the lock on
it is given. `guard` rules both out, as far as a lock file does not.
-/

namespace Fdm.Locking

section
variable {ο ι : Type} [DecidableEq ο] [DecidableEq ι] {conf : Conf ι} {locks : LockTypes}
  {p : Proc ι} {d : ι} {b : Disk ο ι} {s : Sys ο ι}

/-! ## The invariant -/

/-- The file that the fetcher works on, as long as it is at the path. -/
def Fetch.source {μ : Type} : Fetch μ → Option ℕ
  | .opening _ o => o.phase.fd
  | .mail fd _ | .truncate fd | .temp fd _ _ | .linkSaved fd _ | .unlinkPath fd _ => some fd
  | _ => none

/-- The new file, as long as it is not at the path. -/
def Fetch.temp? {μ : Type} : Fetch μ → Option ℕ
  | .linkSaved _ t | .unlinkPath _ t | .linkPath _ t => some t
  | _ => none

/-- `openlock` makes no file. -/
def Opening.Old (o : Opening) : Prop := o ≠ .mklock true ∧ o ≠ .open true

/-- The fetcher makes no file when it opens the mbox. -/
def Fetch.OpensOld {μ : Type} : Fetch μ → Prop
  | .opening _ o => o.Old
  | _ => True

/-- The file that is at the path, or that will be put there. -/
def current (s : Sys ο ι) : Option ℕ :=
  match s.fetch with
  | .linkPath _ temp => some temp
  | _ => s.disk.path

/-- What the fetcher throws away is dropped. -/
def Saved (b : Disk ο ι) (dropped : List (MailId ο ι)) : Fetch (MailId ο ι) → Prop
  | .truncate fd => ∀ x ∈ b.content fd, x.1 ∈ dropped
  | .temp fd size kept => ∀ x ∈ b.content fd, x.1 ∈ dropped ∨ x ∈ copied b fd size kept
  | .linkSaved fd temp | .unlinkPath fd temp =>
    ∀ x ∈ b.content fd, x.1 ∈ dropped ∨ x ∈ b.content temp
  | _ => True

/-- No mail is lost so far. -/
structure Safe (conf : Conf ι) (s : Sys ο ι) : Prop where
  locked : Locked conf.locks (phase s) s.disk
  bound : ∀ i, s.disk.path = some i → i < s.disk.next
  old : s.fetch.OpensOld
  temp : ∀ t, s.fetch.temp? = some t → t < s.disk.next
  source : ∀ fd, s.fetch.source = some fd → s.disk.path = some fd
  window : ∀ fd temp, s.fetch = .linkPath fd temp → s.disk.path = none
  mine : conf.locks.dotlock = true → ∀ d fd, (s.deliver d).phase.fd = some fd →
    s.disk.path = some fd
  writing : ∀ d fd k, s.deliver d = .write fd (k + 1) → s.disk.path = some fd
  saved : Saved s.disk s.dropped s.fetch
  delivered : ∀ d j, j < (s.deliver d).written (conf.pieces d) →
    .new d ∈ s.dropped ∨ ∃ i, current s = some i ∧ (.new d, j) ∈ s.disk.content i

/-- Nobody has been overtaken when it has its locks: the file of which mails are thrown away
is as long as `stat` said, and without a lock file, a deliverer writes to the file at the
path and makes no file while the fetcher puts a new one there. -/
def guard (conf : Conf ι) (s : Sys ο ι) : Act ο ι → Prop
  | .save kept => ∀ fd size, s.fetch = .mail fd size →
      (∃ m ∈ fetched s.disk fd size, m ∉ kept) → (s.disk.content fd).length = size
  | .deliver d => conf.locks.dotlock = false →
      (∀ fd, s.deliver d = .write fd 0 → s.disk.path = some fd) ∧
        (s.deliver d = .opening (.open true) → ∀ fd temp, s.fetch ≠ .linkPath fd temp)
  | _ => True

/-- Nobody but the fetcher writes to the file that the fetcher has locked. -/
theorem Safe.not_writing (h : Safe conf s)
    (hlocks : conf.locks.dotlock = true ∨ conf.locks.flock = true ∨ conf.locks.fcntl = true)
    {fd : ℕ} (hfetch : s.fetch.phase = .locked fd) (d : ι) (k : ℕ) : s.deliver d ≠ .write fd k := by
  intro hd
  have hph : phase s (.deliver d) = .locked fd := by
    show (s.deliver d).phase = _
    rw [hd]
    rfl
  have heq := h.locked.exclusive hlocks hph (q := .fetch) hfetch
  cases heq

/-- With a lock file no deliverer is in while the fetcher is. -/
theorem Safe.alone (h : Safe conf s) (hdot : conf.locks.dotlock = true)
    (hfetch : s.fetch.phase ≠ .out) (d : ι) : (s.deliver d).phase = .out := by
  by_contra hd
  have heq := h.locked.alone hdot (.deliver d) .fetch hd hfetch
  cases heq

/-! ### Deliverers -/

theorem Saved.congr {b b' : Disk ο ι} {dropped : List (MailId ο ι)} {f : Fetch (MailId ο ι)}
    (hcontent : b'.content = b.content) (h : Saved b dropped f) : Saved b' dropped f := by
  cases f with
  | truncate fd =>
    rw [Saved, hcontent]
    exact h
  | temp fd size kept =>
    have hcopied : copied b' fd size kept = copied b fd size kept := by
      rw [copied, mapped, hcontent]
      rfl
    rw [Saved, hcontent, hcopied]
    exact h
  | linkSaved fd temp =>
    rw [Saved, hcontent]
    exact h
  | unlinkPath fd temp =>
    rw [Saved, hcontent]
    exact h
  | _ => trivial

theorem Safe.deliverQuiet {pc' : Deliver} {b' : Disk ο ι} (h : Safe conf s)
    (hlock : LockStep conf.locks (.deliver d) (s.deliver d).phase s.disk pc'.phase b')
    (hq : QuietDeliver (conf.pieces d) (s.deliver d) pc' s.disk b') :
    Safe conf { s with deliver := Function.update s.deliver d pc', disk := b' } where
  locked := by
    rw [phase_deliver]
    exact h.locked.step rfl hlock
  bound := by
    show ∀ i, b'.path = some i → i < b'.next
    rw [hq.quiet.files.path, hq.quiet.files.next]
    exact h.bound
  old := h.old
  temp := by
    show ∀ t, s.fetch.temp? = some t → t < b'.next
    rw [hq.quiet.files.next]
    exact h.temp
  source := by
    show ∀ fd, s.fetch.source = some fd → b'.path = some fd
    rw [hq.quiet.files.path]
    exact h.source
  window := by
    show ∀ fd temp, s.fetch = .linkPath fd temp → b'.path = none
    rw [hq.quiet.files.path]
    exact h.window
  mine hdot d' fd hfd := by
    show b'.path = some fd
    rw [hq.quiet.files.path]
    rcases update_deliver (P := fun pc => pc.phase.fd = some fd) hfd with ⟨-, hfd⟩ | ⟨-, hfd⟩
    · rcases hq.quiet.opens fd hfd with hold | hpath
      · exact h.mine hdot d fd hold
      · exact hpath
    · exact h.mine hdot d' fd hfd
  writing d' fd k hw := by
    show b'.path = some fd
    rw [hq.quiet.files.path]
    rcases update_deliver (P := fun pc => pc = .write fd (k + 1)) hw with ⟨-, hw⟩ | ⟨-, hw⟩
    · exact absurd hw (hq.fresh fd k)
    · exact h.writing d' fd k hw
  saved := h.saved.congr hq.quiet.files.content
  delivered d' j hj := by
    have hold : j < (s.deliver d').written (conf.pieces d') := by
      rcases update_deliver (P := fun pc => j < pc.written (conf.pieces d')) hj with
        ⟨hd, hj⟩ | ⟨-, hj⟩
      · rw [hd] at hj ⊢
        exact Nat.lt_of_lt_of_le hj hq.written
      · exact hj
    rcases h.delivered d' j hold with hdropped | ⟨i, hi, hmem⟩
    · exact Or.inl hdropped
    · refine Or.inr ⟨i, ?_, ?_⟩
      · rw [← hi]
        unfold current
        rw [← hq.quiet.files.path]
      · show _ ∈ b'.content i
        rw [hq.quiet.files.content]
        exact hmem

theorem Safe.deliverCreate (h : Safe conf s)
    (hlock : LockStep conf.locks (.deliver d) (s.deliver d).phase s.disk (.opened s.disk.next)
      (created s.disk))
    (hpath : s.disk.path = none) (hwindow : ∀ fd temp, s.fetch ≠ .linkPath fd temp) :
    Safe conf { s with
      deliver := Function.update s.deliver d (.opening (.flock s.disk.next))
      disk := created s.disk } := by
  have hnone : ∀ fd, s.disk.path ≠ some fd := by
    intro fd hfd
    rw [hpath] at hfd
    cases hfd
  have hcurrent : current s = none := by
    unfold current
    split
    · next fd temp hfetch => exact absurd hfetch (hwindow fd temp)
    · exact hpath
  constructor
  · rw [phase_deliver]
    exact h.locked.step rfl hlock
  · intro i hi
    obtain rfl := Option.some.inj hi
    exact Nat.lt_succ_self _
  · exact h.old
  · intro t ht
    exact Nat.lt_succ_of_lt (h.temp t ht)
  · intro fd hfd
    exact absurd (h.source fd hfd) (hnone fd)
  · intro fd temp hfetch
    exact absurd hfetch (hwindow fd temp)
  · intro hdot d' fd hfd
    rcases update_deliver (P := fun pc => pc.phase.fd = some fd) hfd with ⟨-, hfd⟩ | ⟨-, hfd⟩
    · exact hfd
    · exact absurd (h.mine hdot d' fd hfd) (hnone fd)
  · intro d' fd k hw
    rcases update_deliver (P := fun pc => pc = .write fd (k + 1)) hw with ⟨-, hw⟩ | ⟨-, hw⟩
    · cases hw
    · exact absurd (h.writing d' fd k hw) (hnone fd)
  · -- there is no file that mails could be taken out of
    have hsource := h.source
    show Saved (created s.disk) s.dropped s.fetch
    cases hfetch : s.fetch with
    | truncate fd => exact absurd (hsource fd (by rw [hfetch]; rfl)) (hnone fd)
    | temp fd size kept => exact absurd (hsource fd (by rw [hfetch]; rfl)) (hnone fd)
    | linkSaved fd temp => exact absurd (hsource fd (by rw [hfetch]; rfl)) (hnone fd)
    | unlinkPath fd temp => exact absurd (hsource fd (by rw [hfetch]; rfl)) (hnone fd)
    | _ => trivial
  · intro d' j hj
    have hold : j < (s.deliver d').written (conf.pieces d') := by
      rcases update_deliver (P := fun pc => j < pc.written (conf.pieces d')) hj with
        ⟨-, hj⟩ | ⟨-, hj⟩
      · cases hj
      · exact hj
    rcases h.delivered d' j hold with hdropped | ⟨i, hi, -⟩
    · exact Or.inl hdropped
    · rw [hcurrent] at hi
      cases hi

theorem Safe.deliverWrite {fd k : ℕ} (h : Safe conf s)
    (hlocks : conf.locks.dotlock = true ∨ conf.locks.flock = true ∨ conf.locks.fcntl = true)
    (hd : s.deliver d = .write fd k) (hpath : s.disk.path = some fd)
    (hlock : LockStep conf.locks (.deliver d) (s.deliver d).phase s.disk (.locked fd)
      { s.disk with
        content := Function.update s.disk.content fd (s.disk.content fd ++ [(.new d, k)]) }) :
    Safe conf { s with
      deliver := Function.update s.deliver d (.write fd (k + 1))
      disk := { s.disk with
        content := Function.update s.disk.content fd (s.disk.content fd ++ [(.new d, k)]) } } := by
  have hcurrent : current s = some fd := by
    unfold current
    split
    · next fd' temp hfetch =>
      rw [h.window fd' temp hfetch] at hpath
      cases hpath
    · exact hpath
  have hkeep : ∀ i x, x ∈ s.disk.content i →
      x ∈ Function.update s.disk.content fd (s.disk.content fd ++ [(.new d, k)]) i := by
    intro i x hx
    by_cases hi : i = fd
    · rw [hi, Function.update_self]
      rw [hi] at hx
      exact List.mem_append_left _ hx
    · rwa [Function.update_of_ne hi]
  constructor
  · rw [phase_deliver]
    exact h.locked.step rfl hlock
  · exact h.bound
  · exact h.old
  · exact h.temp
  · exact h.source
  · exact h.window
  · intro hdot d' fd' hfd
    rcases update_deliver (P := fun pc => pc.phase.fd = some fd') hfd with ⟨-, hfd⟩ | ⟨-, hfd⟩
    · rw [← hfd]
      exact hpath
    · exact h.mine hdot d' fd' hfd
  · intro d' fd' k' hw
    rcases update_deliver (P := fun pc => pc = .write fd' (k' + 1)) hw with ⟨-, hw⟩ | ⟨-, hw⟩
    · obtain ⟨rfl, -⟩ := Deliver.write.inj hw
      exact hpath
    · exact h.writing d' fd' k' hw
  · -- the fetcher would have the lock on the same file
    have hother : ∀ fd', s.fetch.source = some fd' → s.fetch.phase ≠ .locked fd' := by
      intro fd' hsource hfetch
      have hfd : fd' = fd := by
        rw [h.source fd' hsource, Option.some_inj] at hpath
        exact hpath
      exact h.not_writing hlocks hfetch d k (hfd ▸ hd)
    show Saved _ s.dropped s.fetch
    cases hfetch : s.fetch with
    | truncate fd' => exact absurd (by rw [hfetch]; rfl) (hother fd' (by rw [hfetch]; rfl))
    | temp fd' size kept => exact absurd (by rw [hfetch]; rfl) (hother fd' (by rw [hfetch]; rfl))
    | linkSaved fd' t => exact absurd (by rw [hfetch]; rfl) (hother fd' (by rw [hfetch]; rfl))
    | unlinkPath fd' t => exact absurd (by rw [hfetch]; rfl) (hother fd' (by rw [hfetch]; rfl))
    | _ => trivial
  · intro d' j hj
    have hold : (d' = d ∧ j = k) ∨ j < (s.deliver d').written (conf.pieces d') := by
      rcases update_deliver (P := fun pc => j < pc.written (conf.pieces d')) hj with
        ⟨hdd, hj⟩ | ⟨-, hj⟩
      · have hlt : j < k + 1 := hj
        rw [hdd, hd]
        show _ ∨ j < k
        by_cases hjk : j = k
        · exact Or.inl ⟨rfl, hjk⟩
        · exact Or.inr (by omega)
      · exact Or.inr hj
    rcases hold with ⟨rfl, rfl⟩ | hold
    · refine Or.inr ⟨fd, hcurrent, ?_⟩
      show _ ∈ Function.update s.disk.content fd _ fd
      rw [Function.update_self]
      exact List.mem_append_right _ (List.mem_singleton_self _)
    · rcases h.delivered d' j hold with hdropped | ⟨i, hi, hmem⟩
      · exact Or.inl hdropped
      · exact Or.inr ⟨i, hi, hkeep i _ hmem⟩

theorem Safe.deliver {r : Deliver × Disk ο ι} (h : Safe conf s)
    (hlocks : conf.locks.dotlock = true ∨ conf.locks.flock = true ∨ conf.locks.fcntl = true)
    (hguard : guard conf s (.deliver d)) (hstep : deliver conf d s.disk (s.deliver d) = some r) :
    Safe conf { s with deliver := Function.update s.deliver d r.1, disk := r.2 } := by
  obtain ⟨pc', b'⟩ := r
  have hlock := deliver_step hstep
  rcases deliver_files hstep with hq | ⟨hpc, hpath, rfl, rfl⟩ | ⟨fd, k, hpc, rfl, rfl⟩
  · exact h.deliverQuiet hlock hq
  · refine h.deliverCreate hlock hpath fun fd temp hfetch => ?_
    cases hdot : conf.locks.dotlock with
    | false => exact (hguard hdot).2 hpc fd temp hfetch
    | true =>
      have halone := h.alone hdot (by rw [hfetch]; exact nofun) d
      rw [hpc] at halone
      cases halone
  · refine h.deliverWrite hlocks hpc ?_ hlock
    cases k with
    | succ k => exact h.writing d fd k hpc
    | zero =>
      cases hdot : conf.locks.dotlock with
      | false => exact (hguard hdot).1 fd hpc
      | true => exact h.mine hdot d fd (by rw [hpc]; rfl)

theorem Safe.failDeliver {pc' : Deliver} (h : Safe conf s)
    (hstep : failDeliver (s.deliver d) = some pc') :
    Safe conf { s with deliver := Function.update s.deliver d pc' } := by
  have hphase : (s.deliver d).phase = pc'.phase ∧ pc'.written (conf.pieces d) = 0 ∧
      ∀ fd k, pc' ≠ .write fd k := by
    cases hpc : s.deliver d with
    | sleep =>
      rw [hpc] at hstep
      obtain rfl := Option.some.inj hstep
      exact ⟨rfl, rfl, nofun⟩
    | write fd k =>
      rw [hpc] at hstep
      obtain rfl := Option.some.inj hstep
      exact ⟨rfl, rfl, nofun⟩
    | _ =>
      rw [hpc] at hstep
      cases hstep
  obtain ⟨hphase, hwritten, hfresh⟩ := hphase
  refine h.deliverQuiet ?_ ⟨⟨SameFiles.refl s.disk, fun fd hfd => ?_⟩, ?_, ?_⟩
  · rw [← hphase]
    exact .stay _ ⟨rfl, rfl, rfl⟩
  · rw [hphase]
    exact Or.inl hfd
  · rw [hwritten]
    exact Nat.zero_le _
  · exact fun fd k => hfresh fd (k + 1)

/-! ### The fetcher -/

/-- A step of the fetcher that leaves the files at the path and what the deliverers wrote. -/
theorem Safe.fetchStep {pc' : Fetch (MailId ο ι)} {b' : Disk ο ι} {dropped : List (MailId ο ι)}
    (h : Safe conf s) (hlock : LockStep conf.locks .fetch s.fetch.phase s.disk pc'.phase b')
    (hpath : b'.path = s.disk.path) (hnext : s.disk.next ≤ b'.next) (hold : pc'.OpensOld)
    (htemp : ∀ t, pc'.temp? = some t → t < b'.next)
    (hsource : ∀ fd, pc'.source = some fd → s.disk.path = some fd)
    (hwindow : ∀ fd temp, s.fetch ≠ .linkPath fd temp)
    (hwindow' : ∀ fd temp, pc' ≠ .linkPath fd temp) (hsaved : Saved b' dropped pc')
    (hdropped : ∀ m ∈ s.dropped, m ∈ dropped)
    (hkeep : ∀ i x, s.disk.path = some i → x ∈ s.disk.content i →
      x.1 ∈ dropped ∨ x ∈ b'.content i) :
    Safe conf { s with fetch := pc', disk := b', dropped := dropped } where
  locked := by
    have hphase : phase { s with fetch := pc', disk := b', dropped := dropped }
        = Function.update (phase s) .fetch pc'.phase := phase_fetch s pc' b'
    rw [hphase]
    exact h.locked.step rfl hlock
  bound i hi := by
    rw [hpath] at hi
    exact Nat.lt_of_lt_of_le (h.bound i hi) hnext
  old := hold
  temp := htemp
  source fd hfd := hpath.trans (hsource fd hfd)
  window fd temp hfetch := absurd hfetch (hwindow' fd temp)
  mine hdot d fd hfd := hpath.trans (h.mine hdot d fd hfd)
  writing d fd k hw := hpath.trans (h.writing d fd k hw)
  saved := hsaved
  delivered d j hj := by
    rcases h.delivered d j hj with hold | ⟨i, hi, hmem⟩
    · exact Or.inl (hdropped _ hold)
    · have hcurrent : s.disk.path = some i := by
        rw [← hi]
        unfold current
        split
        · next fd temp hfetch => exact absurd hfetch (hwindow fd temp)
        · rfl
      rcases hkeep i _ hcurrent hmem with hgone | hkept
      · exact Or.inl hgone
      · refine Or.inr ⟨i, ?_, hkept⟩
        show current { s with fetch := pc', disk := b', dropped := dropped } = some i
        unfold current
        split
        · next fd temp hfetch => exact absurd hfetch (hwindow' fd temp)
        · exact hpath.trans hcurrent

/-- The same when no file changes. -/
theorem Safe.fetchQuiet {pc' : Fetch (MailId ο ι)} {b' : Disk ο ι}
    (h : Safe conf s) (hlock : LockStep conf.locks .fetch s.fetch.phase s.disk pc'.phase b')
    (hfiles : SameFiles s.disk b') (hold : pc'.OpensOld)
    (htemp : ∀ t, pc'.temp? = some t → s.fetch.temp? = some t)
    (hsource : ∀ fd, pc'.source = some fd → s.disk.path = some fd)
    (hwindow : ∀ fd temp, s.fetch ≠ .linkPath fd temp)
    (hwindow' : ∀ fd temp, pc' ≠ .linkPath fd temp) (hsaved : Saved s.disk s.dropped pc') :
    Safe conf { s with fetch := pc', disk := b' } := by
  refine h.fetchStep hlock hfiles.path (Nat.le_of_eq hfiles.next.symm) hold ?_ hsource hwindow
    hwindow' (hsaved.congr hfiles.content) (fun _ hm => hm) ?_
  · intro t ht
    rw [hfiles.next]
    exact h.temp t (htemp t ht)
  · intro i x _ hx
    rw [hfiles.content]
    exact Or.inr hx

omit [DecidableEq ο] in
theorem openlock_old {o o' : Opening} (ho : o.Old) (h : (openlock locks p b o).1 = .go o') :
    o'.Old := by
  unfold openlock at h
  cases o with
  | mklock create =>
    cases create with
    | true => exact absurd rfl ho.1
    | false =>
      dsimp only at h
      cases hm : mklock locks b with
      | none =>
        rw [hm] at h
        cases h
      | some b' =>
        rw [hm] at h
        obtain rfl := Opened.go.inj h
        exact ⟨nofun, nofun⟩
  | «open» create =>
    cases create with
    | true => exact absurd rfl ho.2
    | false =>
      cases hpath : b.path <;>
      · simp only [hpath] at h
        obtain rfl := Opened.go.inj h
        exact ⟨nofun, nofun⟩
  | flock fd =>
    dsimp only at h
    cases hf : lockFlock locks p fd b <;>
    · rw [hf] at h
      obtain rfl := Opened.go.inj h
      exact ⟨nofun, nofun⟩
  | fcntl fd =>
    dsimp only at h
    cases hf : lockFcntl locks p fd b with
    | none =>
      rw [hf] at h
      obtain rfl := Opened.go.inj h
      exact ⟨nofun, nofun⟩
    | some b' =>
      rw [hf] at h
      cases h
  | close fd =>
    obtain rfl := Opened.go.inj h
    exact ⟨nofun, nofun⟩
  | rmlock errno => cases h

theorem Safe.fetchOpening {size : ℕ} {o : Opening} {pc' : Fetch (MailId ο ι)} {b' : Disk ο ι}
    (h : Safe conf s) (hpc : s.fetch = .opening size o)
    (hstep : fetch conf s.disk s.fetch = some (pc', b')) :
    Safe conf { s with fetch := pc', disk := b' } := by
  have hlock := fetch_step hstep
  have ho : o.Old := by
    have hold := h.old
    rwa [hpc] at hold
  have hwindow : ∀ fd temp, s.fetch ≠ .linkPath fd temp := by
    rw [hpc]
    exact nofun
  rcases openlock_files conf.locks .fetch s.disk o with hquiet | ⟨rfl, -, -⟩
  · have hsource : ∀ fd, o.phase.fd = some fd → s.disk.path = some fd := by
      have hsource := h.source
      rwa [hpc] at hsource
    have hopens : ∀ fd, (openlock conf.locks .fetch s.disk o).1.phase.fd = some fd →
        s.disk.path = some fd := by
      intro fd hfd
      rcases hquiet.opens fd hfd with hfd | hfd
      · exact hsource fd hfd
      · exact hfd
    rw [hpc] at hstep
    unfold fetch at hstep
    dsimp only at hstep
    split at hstep
    · next o' b₁ heq =>
      obtain ⟨rfl, rfl⟩ := Prod.mk.inj (Option.some.inj hstep)
      have hold := openlock_old ho (congrArg Prod.fst heq)
      rw [heq] at hquiet hopens
      exact h.fetchQuiet hlock hquiet.files hold nofun hopens hwindow nofun trivial
    · next fd b₁ heq =>
      obtain ⟨rfl, rfl⟩ := Prod.mk.inj (Option.some.inj hstep)
      rw [heq] at hquiet hopens
      exact h.fetchQuiet hlock hquiet.files trivial nofun hopens hwindow nofun trivial
    all_goals
      next heq =>
      obtain ⟨rfl, rfl⟩ := Prod.mk.inj (Option.some.inj hstep)
      rw [heq] at hquiet
      exact h.fetchQuiet hlock hquiet.files trivial nofun nofun hwindow nofun trivial
  · exact absurd rfl ho.2

/-- The mbox is truncated: all that is in it was dropped. -/
theorem Safe.fetchTruncate {fd : ℕ} (h : Safe conf s) (hpc : s.fetch = .truncate fd)
    (hlock : LockStep conf.locks .fetch s.fetch.phase s.disk (.locked fd)
      { s.disk with content := Function.update s.disk.content fd [] }) :
    Safe conf { s with
      fetch := .close fd
      disk := { s.disk with content := Function.update s.disk.content fd [] } } := by
  have hpath : s.disk.path = some fd := h.source fd (by rw [hpc]; rfl)
  have hsaved := h.saved
  rw [hpc] at hsaved
  refine h.fetchStep hlock rfl (Nat.le_refl _) trivial nofun nofun (by rw [hpc]; exact nofun) nofun
    trivial (fun _ hm => hm) fun i x hi hx => ?_
  rw [hpath, Option.some_inj] at hi
  rw [← hi] at hx
  exact Or.inl (hsaved x hx)

/-- The new file is written. -/
theorem Safe.fetchTemp {fd size : ℕ} {kept : List (MailId ο ι)} (h : Safe conf s)
    (hpc : s.fetch = .temp fd size kept)
    (hlock : LockStep conf.locks .fetch s.fetch.phase s.disk (.locked fd)
      { s.disk with
        content := Function.update s.disk.content s.disk.next (copied s.disk fd size kept)
        next := s.disk.next + 1 }) :
    Safe conf { s with
      fetch := .linkSaved fd s.disk.next
      disk := { s.disk with
        content := Function.update s.disk.content s.disk.next (copied s.disk fd size kept)
        next := s.disk.next + 1 } } := by
  have hpath : s.disk.path = some fd := h.source fd (by rw [hpc]; rfl)
  have hother : ∀ i, s.disk.path = some i → i ≠ s.disk.next := fun i hi =>
    Nat.ne_of_lt (h.bound i hi)
  have hsaved := h.saved
  rw [hpc] at hsaved
  refine h.fetchStep hlock rfl (Nat.le_succ _) trivial ?_ ?_ (by rw [hpc]; exact nofun) nofun
    ?_ (fun _ hm => hm) ?_
  · intro t ht
    obtain rfl := Option.some.inj ht
    exact Nat.lt_succ_self _
  · intro i hi
    obtain rfl := Option.some.inj hi
    exact hpath
  · intro x hx
    change x ∈ Function.update s.disk.content s.disk.next _ fd at hx
    rw [Function.update_of_ne (hother fd hpath)] at hx
    rcases hsaved x hx with hdropped | hcopied
    · exact Or.inl hdropped
    · right
      show x ∈ Function.update s.disk.content s.disk.next _ s.disk.next
      rwa [Function.update_self]
  · intro i x hi hx
    right
    show x ∈ Function.update s.disk.content s.disk.next _ i
    rwa [Function.update_of_ne (hother i hi)]

/-- The old file leaves the path: the new one has what is to be kept. -/
theorem Safe.fetchUnlink {fd t : ℕ} (h : Safe conf s)
    (hlocks : conf.locks.dotlock = true ∨ conf.locks.flock = true ∨ conf.locks.fcntl = true)
    (hpc : s.fetch = .unlinkPath fd t)
    (hlock : LockStep conf.locks .fetch s.fetch.phase s.disk (.locked fd)
      { s.disk with path := none }) :
    Safe conf { s with fetch := .linkPath fd t, disk := { s.disk with path := none } } := by
  have hpath : s.disk.path = some fd := h.source fd (by rw [hpc]; rfl)
  have hphase : s.fetch.phase = .locked fd := by
    rw [hpc]
    rfl
  have hsaved := h.saved
  rw [hpc] at hsaved
  constructor
  · rw [phase_fetch]
    exact h.locked.step rfl hlock
  · exact nofun
  · trivial
  · intro t' ht
    exact h.temp t' (by rw [hpc]; exact ht)
  · exact nofun
  · intro _ _ _
    rfl
  · intro hdot d fd' hfd
    have halone := h.alone hdot (by rw [hphase]; exact nofun) d
    have hfd : (s.deliver d).phase.fd = some fd' := hfd
    rw [halone] at hfd
    cases hfd
  · intro d fd' k hw
    have hfd := h.writing d fd' k hw
    rw [hpath, Option.some_inj] at hfd
    exact absurd hw (h.not_writing hlocks (hfd ▸ hphase) d (k + 1))
  · trivial
  · intro d j hj
    rcases h.delivered d j hj with hdropped | ⟨i, hi, hmem⟩
    · exact Or.inl hdropped
    · have hcurrent : current s = some fd := by
        unfold current
        rw [hpc]
        exact hpath
      rw [hcurrent, Option.some_inj] at hi
      rw [← hi] at hmem
      rcases hsaved _ hmem with hdropped | hkept
      · exact Or.inl hdropped
      · exact Or.inr ⟨t, rfl, hkept⟩

/-- The new file comes to the path. -/
theorem Safe.fetchLink {fd t : ℕ} (h : Safe conf s)
    (hpc : s.fetch = .linkPath fd t)
    (hlock : LockStep conf.locks .fetch s.fetch.phase s.disk (.locked fd)
      { s.disk with path := some t }) :
    Safe conf { s with fetch := .unlinkTemp fd, disk := { s.disk with path := some t } } := by
  have hpath : s.disk.path = none := h.window fd t hpc
  have hnone : ∀ i, s.disk.path ≠ some i := by
    intro i hi
    rw [hpath] at hi
    cases hi
  constructor
  · rw [phase_fetch]
    exact h.locked.step rfl hlock
  · intro i hi
    refine h.temp i ?_
    rw [hpc]
    exact hi
  · trivial
  · exact nofun
  · exact nofun
  · exact nofun
  · intro hdot d fd' hfd
    exact absurd (h.mine hdot d fd' hfd) (hnone fd')
  · intro d fd' k hw
    exact absurd (h.writing d fd' k hw) (hnone fd')
  · trivial
  · intro d j hj
    rcases h.delivered d j hj with hdropped | ⟨i, hi, hmem⟩
    · exact Or.inl hdropped
    · have hcurrent : current s = some t := by
        unfold current
        rw [hpc]
      rw [hcurrent] at hi
      exact Or.inr ⟨i, hi, hmem⟩

theorem Safe.fetch {r : Fetch (MailId ο ι) × Disk ο ι} (h : Safe conf s)
    (hlocks : conf.locks.dotlock = true ∨ conf.locks.flock = true ∨ conf.locks.fcntl = true)
    (hstep : fetch conf s.disk s.fetch = some r) :
    Safe conf { s with fetch := r.1, disk := r.2 } := by
  obtain ⟨pc', b'⟩ := r
  have hlock := fetch_step hstep
  cases hpc : s.fetch with
  | opening size o => exact h.fetchOpening hpc hstep
  | stat =>
    have hwindow : ∀ fd temp, s.fetch ≠ .linkPath fd temp := by
      rw [hpc]
      exact nofun
    rw [hpc] at hstep
    unfold Locking.fetch at hstep
    dsimp only at hstep
    cases hpath : s.disk.path with
    | none =>
      rw [hpath] at hstep
      obtain ⟨rfl, rfl⟩ := Prod.mk.inj (Option.some.inj hstep)
      exact h.fetchQuiet hlock (SameFiles.refl _) trivial nofun nofun hwindow nofun trivial
    | some i =>
      rw [hpath] at hstep
      dsimp only at hstep
      split_ifs at hstep
      · obtain ⟨rfl, rfl⟩ := Prod.mk.inj (Option.some.inj hstep)
        exact h.fetchQuiet hlock (SameFiles.refl _) trivial nofun nofun hwindow nofun trivial
      · obtain ⟨rfl, rfl⟩ := Prod.mk.inj (Option.some.inj hstep)
        exact h.fetchQuiet hlock (SameFiles.refl _) ⟨nofun, nofun⟩ nofun nofun hwindow nofun trivial
  | sleep size =>
    rw [hpc] at hstep
    obtain ⟨rfl, rfl⟩ := Prod.mk.inj (Option.some.inj hstep)
    exact h.fetchQuiet hlock (SameFiles.refl _) ⟨nofun, nofun⟩ nofun nofun
      (by rw [hpc]; exact nofun) nofun trivial
  | mail fd size =>
    rw [hpc] at hstep
    cases hstep
  | truncate fd =>
    rw [hpc] at hstep
    obtain ⟨rfl, rfl⟩ := Prod.mk.inj (Option.some.inj hstep)
    exact h.fetchTruncate hpc hlock
  | temp fd size kept =>
    rw [hpc] at hstep
    obtain ⟨rfl, rfl⟩ := Prod.mk.inj (Option.some.inj hstep)
    exact h.fetchTemp hpc hlock
  | linkSaved fd t =>
    have hsaved := h.saved
    have hsource := h.source
    have htemp := h.temp
    rw [hpc] at hstep hsaved hsource htemp
    obtain ⟨rfl, rfl⟩ := Prod.mk.inj (Option.some.inj hstep)
    exact h.fetchQuiet hlock (SameFiles.refl _) trivial (by rw [hpc]; exact fun _ ht => ht) hsource
      (by rw [hpc]; exact nofun) nofun hsaved
  | unlinkPath fd t =>
    rw [hpc] at hstep
    obtain ⟨rfl, rfl⟩ := Prod.mk.inj (Option.some.inj hstep)
    exact h.fetchUnlink hlocks hpc hlock
  | linkPath fd t =>
    rw [hpc] at hstep
    unfold Locking.fetch at hstep
    rw [h.window fd t hpc] at hstep
    obtain ⟨rfl, rfl⟩ := Prod.mk.inj (Option.some.inj hstep)
    exact h.fetchLink hpc hlock
  | finished =>
    rw [hpc] at hstep
    cases hstep
  | close fd =>
    rw [hpc] at hstep
    obtain ⟨rfl, rfl⟩ := Prod.mk.inj (Option.some.inj hstep)
    exact h.fetchQuiet hlock ⟨rfl, rfl, rfl⟩ trivial nofun nofun (by rw [hpc]; exact nofun) nofun
      trivial
  | rmlock =>
    rw [hpc] at hstep
    obtain ⟨rfl, rfl⟩ := Prod.mk.inj (Option.some.inj hstep)
    exact h.fetchQuiet hlock (rmlock_files _ _) trivial nofun nofun (by rw [hpc]; exact nofun) nofun
      trivial
  | _ =>
    rw [hpc] at hstep
    obtain ⟨rfl, rfl⟩ := Prod.mk.inj (Option.some.inj hstep)
    exact h.fetchQuiet hlock (SameFiles.refl _) trivial nofun nofun (by rw [hpc]; exact nofun) nofun
      trivial

/-- The mails are committed. What is not read of the file is not thrown away. -/
theorem Safe.save {fd size : ℕ} {kept : List (MailId ο ι)} (h : Safe conf s)
    (hpc : s.fetch = .mail fd size) (hguard : guard conf s (.save kept)) (hnodup : kept.Nodup)
    (hsub : ∀ m ∈ kept, m ∈ fetched s.disk fd size) :
    Safe conf { s with
      fetch := save s.disk fd size kept
      dropped := s.dropped ++ (fetched s.disk fd size).filter fun m => m ∉ kept } := by
  have hpath : s.disk.path = some fd := h.source fd (by rw [hpc]; rfl)
  have hphase : s.fetch.phase = .locked fd := by
    rw [hpc]
    rfl
  -- a mail that was read is kept or dropped
  have hread : (∃ m ∈ fetched s.disk fd size, m ∉ kept) → ∀ x ∈ s.disk.content fd,
      x ∈ mapped s.disk fd size ∧ (x.1 ∈ kept ∨
        x.1 ∈ s.dropped ++ (fetched s.disk fd size).filter fun m => m ∉ kept) := by
    intro hsome x hx
    have hlen := hguard fd size hpc hsome
    have hmapped : x ∈ mapped s.disk fd size := by
      rw [mapped, ← hlen, List.take_length]
      exact hx
    have hfetched : x.1 ∈ fetched s.disk fd size :=
      List.mem_dedup.mpr (List.mem_map.mpr ⟨x, hmapped, rfl⟩)
    refine ⟨hmapped, ?_⟩
    by_cases hkept : x.1 ∈ kept
    · exact Or.inl hkept
    · refine Or.inr (List.mem_append_right _ (List.mem_filter.mpr ⟨hfetched, ?_⟩))
      simpa using hkept
  have hquiet : ∀ pc', pc'.phase = .locked fd → pc'.OpensOld → pc'.temp? = none →
      (∀ i, pc'.source = some i → i = fd) → (∀ fd t, pc' ≠ .linkPath fd t) →
      Saved s.disk (s.dropped ++ (fetched s.disk fd size).filter fun m => m ∉ kept) pc' →
      Safe conf { s with
        fetch := pc'
        dropped := s.dropped ++ (fetched s.disk fd size).filter fun m => m ∉ kept } := by
    intro pc' hphase' hold htemp hsource hwindow hsaved
    refine h.fetchStep ?_ rfl (Nat.le_refl _) hold ?_ ?_ (by rw [hpc]; exact nofun)
      hwindow hsaved (fun _ hm => List.mem_append_left _ hm) fun _ _ _ hx => Or.inr hx
    · rw [hphase, hphase']
      exact .stay _ ⟨rfl, rfl, rfl⟩
    · intro t ht
      rw [htemp] at ht
      cases ht
    · intro i hi
      rw [hsource i hi]
      exact hpath
  unfold Locking.save
  by_cases hnil : kept = []
  · rw [if_pos hnil]
    by_cases hempty : fetched s.disk fd size ≠ []
    · rw [if_pos hempty]
      obtain ⟨m, hm⟩ := List.exists_mem_of_ne_nil _ hempty
      refine hquiet (.truncate fd) rfl trivial rfl (fun i hi => (Option.some.inj hi).symm) nofun ?_
      intro x hx
      rcases (hread ⟨m, hm, by rw [hnil]; simp⟩ x hx).2 with hkept | hdropped
      · rw [hnil] at hkept
        cases hkept
      · exact hdropped
    · rw [if_neg hempty]
      exact hquiet (.close fd) rfl trivial rfl nofun nofun trivial
  · rw [if_neg hnil]
    by_cases hall : kept.length = (fetched s.disk fd size).length
    · rw [if_pos hall]
      exact hquiet (.close fd) rfl trivial rfl nofun nofun trivial
    · rw [if_neg hall]
      have hsome : ∃ m ∈ fetched s.disk fd size, m ∉ kept := by
        by_contra hno
        push Not at hno
        have hle := (hnodup.subperm hsub).length_le
        have hge := ((List.nodup_dedup _).subperm hno).length_le
        exact hall (Nat.le_antisymm hle hge)
      refine hquiet (.temp fd size kept) rfl trivial rfl (fun i hi => (Option.some.inj hi).symm)
        nofun ?_
      intro x hx
      obtain ⟨hmapped, hkept | hdropped⟩ := hread hsome x hx
      · refine Or.inr (List.mem_flatMap.mpr ⟨x.1, hkept, List.mem_filter.mpr ⟨hmapped, ?_⟩⟩)
        simp
      · exact Or.inl hdropped

theorem Safe.failFetch {pc' : Fetch (MailId ο ι)} (h : Safe conf s)
    (hstep : failFetch s.fetch = some pc') : Safe conf { s with fetch := pc' } := by
  cases hpc : s.fetch with
  | sleep size =>
    rw [hpc] at hstep
    obtain rfl := Option.some.inj hstep
    refine h.fetchQuiet ?_ (SameFiles.refl _) trivial nofun nofun
      (by rw [hpc]; exact nofun) nofun trivial
    rw [hpc]
    exact .stay .out ⟨rfl, rfl, rfl⟩
  | mail fd size =>
    rw [hpc] at hstep
    obtain rfl := Option.some.inj hstep
    refine h.fetchQuiet ?_ (SameFiles.refl _) trivial nofun nofun
      (by rw [hpc]; exact nofun) nofun trivial
    rw [hpc]
    exact .stay (.locked fd) ⟨rfl, rfl, rfl⟩
  | _ =>
    rw [hpc] at hstep
    cases hstep

/-! ### Runs -/

theorem safe_begin (conf : Conf ι) (old : Option (List (ο × ℕ))) : Safe conf (begin old) where
  locked :=
    { owns := by
        intro p
        have hout : phase (begin old : Sys ο ι) p = .out := by cases p <;> rfl
        rw [hout]
        exact .of_dotlock (fun _ hne => absurd rfl hne) fun _ => ⟨nofun, nofun⟩
      alone := by
        intro _ p q hp
        refine absurd ?_ hp
        cases p <;> rfl }
  bound := by
    intro i hi
    obtain ⟨_, -, rfl⟩ := Option.map_eq_some_iff.mp hi
    exact Nat.zero_lt_one
  old := trivial
  temp := nofun
  source := nofun
  window := nofun
  mine _ _ _ := nofun
  writing _ _ _ := nofun
  saved := trivial
  delivered _ _ := nofun

/-- One call that meets the guard loses no mail. -/
theorem Safe.step {s' : Sys ο ι} {a : Act ο ι} (h : Safe conf s)
    (hlocks : conf.locks.dotlock = true ∨ conf.locks.flock = true ∨ conf.locks.fcntl = true)
    (hguard : guard conf s a) (hstep : step conf s a = some s') : Safe conf s' := by
  cases a with
  | fetch =>
    obtain ⟨r, hr, rfl⟩ := Option.map_eq_some_iff.mp hstep
    exact h.fetch hlocks hr
  | save kept =>
    unfold Locking.step at hstep
    cases hpc : s.fetch with
    | mail fd size =>
      simp only [hpc] at hstep
      split_ifs at hstep with hkept
      obtain rfl := Option.some.inj hstep
      exact h.save hpc hguard hkept.1 hkept.2
    | _ => simp [hpc] at hstep
  | failFetch =>
    obtain ⟨pc', hpc, rfl⟩ := Option.map_eq_some_iff.mp hstep
    exact h.failFetch hpc
  | deliver d =>
    obtain ⟨r, hr, rfl⟩ := Option.map_eq_some_iff.mp hstep
    exact h.deliver hlocks hguard hr
  | failDeliver d =>
    obtain ⟨pc', hpc, rfl⟩ := Option.map_eq_some_iff.mp hstep
    exact h.failDeliver hpc

end

end Fdm.Locking
