import Fdm.Maildir.Fetch

/-!
# What a maildir fetch unlinks

A file is unlinked just when its mail has been committed as dropped, once for each mail. The path
is hung on a mail when the file is read: a mail that is too big has none, so that no such mail may
be committed.
-/

namespace Fdm.FetchMaildir

open Fdm.Fetch

/-- The paths of the mails that were committed as dropped. -/
def drops (committed : List (List Char × Decision)) : List (List Char) :=
  (committed.filter fun c => c.2 = .drop).map Prod.fst

/-- The condition on a call: a file that is too big is not come to while such mails are to be
deleted. -/
def fits (conf : Conf) (maxPathLen : ℕ) (e : Env) : Bool :=
  match e.data.paths[e.data.index]?, e.data.dirp with
  | some path, some dps =>
    match nextFile maxPathLen e.world path dps with
    | .file _ size _ => !conf.delBig || size ≤ conf.maxSize
    | _ => true
  | _, _ => true

/-- The same as a guard on the calls of the state function. -/
def FitsGuard (conf : Conf) (maxPathLen : ℕ) (_ : List (Mail (List Char))) (s : State)
    (_ : Mail (List Char)) (e : Env) : Prop :=
  s = .mail → fits conf maxPathLen e = true

/-! ## The invariant -/

/-- What is so while the fetch goes on. -/
structure Sound (q : List (Mail (List Char))) (s : State) (e : Env) : Prop where
  crashed : e.hist.crashed = false
  unlinks : e.hist.unlinked ++ e.data.unlinklist = drops e.hist.committed
  mails : ∀ m ∈ q, m.auxdata.isSome
  perm : (q.filterMap Mail.auxdata ++ e.hist.committed.map Prod.fst).Perm e.hist.handed
  init : s = .init → q = [] ∧ e.data.unlinklist = []
  index : s = .open ∨ s = .mail → e.data.index < e.data.paths.length
  next : s = .next → e.data.index ≤ e.data.paths.length
  dirp : s = .mail → e.data.dirp.isSome

/-- What is so when the fetch is over. -/
structure Done (q : List (Mail (List Char))) (e : Env) : Prop where
  empty : q = []
  crashed : e.hist.crashed = false
  unlinks : e.hist.unlinked = drops e.hist.committed
  perm : (e.hist.committed.map Prod.fst).Perm e.hist.handed

/-- What is so also when it has been aborted. -/
structure Dead (e : Env) : Prop where
  crashed : e.hist.crashed = false
  unlinks : e.hist.unlinked <+: drops e.hist.committed

section

variable {conf : Conf} {maxPathLen : ℕ} {q : List (Mail (List Char))} {c : Ctx} {e : Env}

/-- What holds in a state holds when the fetch has ended. -/
theorem Sound.dead (h : Sound q c.state e) : Dead e :=
  ⟨h.crashed, ⟨_, h.unlinks⟩⟩

/-- One more mail is committed. -/
theorem drops_append (committed : List (List Char × Decision)) (path : List Char) (d : Decision) :
    drops (committed ++ [(path, d)]) = drops committed ++ if d = .drop then [path] else [] := by
  cases d <;> simp [drops]

/-- A mail that has its path is committed. -/
theorem Sound.commit {n : ℕ} {x : Mail (List Char)} (h : Sound q c.state e) (dec : Decision)
    (hx : q[n]? = some x) :
    Committed (fetcher conf maxPathLen) (Sound (q.eraseIdx n) c.state) Dead
      (commit { x with decision := dec } e) := by
  have hmem : x ∈ q := List.mem_of_getElem? hx
  obtain ⟨path, hpath⟩ := Option.isSome_iff_exists.mp (h.mails x hmem)
  have hperm := filterMap_eraseIdx_perm hx hpath
  have hnot : c.state ≠ .init := by
    intro hinit
    rw [(h.init hinit).1] at hmem
    cases hmem
  -- the path goes from the queue to the commits
  have hmoved : ((q.eraseIdx n).filterMap Mail.auxdata ++
      (e.hist.committed ++ [(path, dec)]).map Prod.fst).Perm e.hist.handed := by
    refine List.Perm.trans ?_ h.perm
    rw [List.map_append]
    refine List.Perm.trans ?_ (hperm.append_right _).symm
    simp only [List.map_cons, List.map_nil, List.cons_append]
    rw [← List.append_assoc]
    exact List.perm_append_singleton _ _
  have hmails : ∀ m ∈ q.eraseIdx n, m.auxdata.isSome := fun m hm =>
    h.mails m (List.mem_of_mem_eraseIdx hm)
  unfold FetchMaildir.commit
  rw [hpath]
  cases dec with
  | drop =>
    refine ⟨h.crashed, ?_, hmails, hmoved, fun hinit => absurd hinit hnot, h.index,
      h.next, h.dirp⟩
    show e.hist.unlinked ++ (e.data.unlinklist ++ [path]) =
      drops (e.hist.committed ++ [(path, .drop)])
    rw [← List.append_assoc, h.unlinks, drops_append, if_pos rfl]
  | keep =>
    refine ⟨h.crashed, ?_, hmails, hmoved, fun hinit => absurd hinit hnot, h.index,
      h.next, h.dirp⟩
    show e.hist.unlinked ++ e.data.unlinklist = drops (e.hist.committed ++ [(path, .keep)])
    rw [h.unlinks, drops_append, if_neg (by decide), List.append_nil]

/-- Files are removed in their order. -/
theorem unlinkAll_prefix (w : World) (paths : List (List Char)) :
    (unlinkAll w paths).1 <+: paths := by
  induction paths with
  | nil => exact List.prefix_refl _
  | cons path paths ih =>
    unfold unlinkAll
    split_ifs
    · exact List.cons_prefix_cons.mpr ⟨rfl, ih⟩
    · exact List.nil_prefix

/-- When no call fails, all of them are. -/
theorem unlinkAll_all {w : World} {paths : List (List Char)} (h : (unlinkAll w paths).2 = true) :
    (unlinkAll w paths).1 = paths := by
  induction paths with
  | nil => rfl
  | cons path paths ih =>
    unfold unlinkAll at h ⊢
    split_ifs at h ⊢
    · exact congrArg (path :: ·) (ih h)

/-! ## The state functions -/

/-- The state function owes this. -/
def Good (conf : Conf) (maxPathLen : ℕ) (q : List (Mail (List Char))) : Result → Prop :=
  Outcome conf (fetcher conf maxPathLen) (fun q c e => Sound q c.state e) Done Dead q

/-- To another state, with the commits as they are. -/
theorem Sound.move {s s' : State} (h : Sound q s e) (data : FetchMaildirData)
    (hlist : data.unlinklist = e.data.unlinklist) (hinit : s' ≠ .init)
    (hindex : s' = .open ∨ s' = .mail → data.index < data.paths.length)
    (hnext : s' = .next → data.index ≤ data.paths.length)
    (hdirp : s' = .mail → data.dirp.isSome) : Sound q s' { e with data := data } where
  crashed := h.crashed
  unlinks := by
    show e.hist.unlinked ++ data.unlinklist = _
    rw [hlist]
    exact h.unlinks
  mails := h.mails
  perm := h.perm
  init hs := absurd hs hinit
  index := hindex
  next := hnext
  dirp := hdirp

theorem good_init (h : Sound q .init e) : Good conf maxPathLen q (stateInit maxPathLen c e) := by
  obtain ⟨rfl, hlist⟩ := h.init rfl
  have hdead : Dead e := ⟨h.crashed, ⟨_, h.unlinks⟩⟩
  have hunlinks : e.hist.unlinked = drops e.hist.committed := by
    rw [← h.unlinks, hlist, List.append_nil]
  unfold stateInit
  split
  · next code hmade =>
    -- `glob` has failed in one way or the other
    have hcode : code = .error ∨ code = .crash := by
      clear h hdead hunlinks hlist
      generalize e.data.maildirs = maildirs at hmade
      induction maildirs with
      | nil => cases hmade
      | cons p ps ih =>
        unfold makePaths at hmade
        split at hmade
        · exact .inl (Except.error.inj hmade).symm
        · exact .inr (Except.error.inj hmade).symm
        · cases hrest : makePaths e.world ps with
          | error code' =>
            rw [hrest] at hmade
            obtain rfl := Except.error.inj hmade
            exact ih hrest
          | ok paths =>
            rw [hrest] at hmade
            cases hmade
    rcases hcode with rfl | rfl
    · exact hdead
    · exact hdead
  · exact hdead
  · next paths hne hmade =>
    have hpos : 0 < paths.length := by
      rcases paths with _ | ⟨p, ps⟩
      · exact absurd rfl hne
      · exact Nat.succ_pos _
    dsimp only
    split_ifs
    · split
      · exact ⟨hdead.crashed, hdead.unlinks⟩
      · exact ⟨rfl, h.crashed, hunlinks, h.perm⟩
    · exact h.move _ hlist.symm nofun (fun _ => hpos) nofun nofun

/-- The files that wait are removed, as far as no call fails. -/
theorem good_next (h : Sound q .next e) (hempty : c.flags.empty = q.isEmpty) (hc : c.state = .next) :
    Good conf maxPathLen q (stateNext c e) := by
  unfold stateNext
  dsimp only
  have hprefix := unlinkAll_prefix e.world e.data.unlinklist
  have hunlinks := h.unlinks
  cases hall : (unlinkAll e.world e.data.unlinklist).2 with
  | false =>
    refine ⟨h.crashed, ?_⟩
    show e.hist.unlinked ++ (unlinkAll e.world e.data.unlinklist).1 <+: drops e.hist.committed
    rw [← hunlinks]
    exact (List.prefix_append_right_inj _).mpr hprefix
  | true =>
    rw [unlinkAll_all hall, hunlinks]
    simp only [Bool.not_true, Bool.false_eq_true, if_false]
    generalize hindex : (if e.data.index < e.data.paths.length then e.data.index + 1
      else e.data.index) = index
    have hle : index ≤ e.data.paths.length := by
      have hold := h.next rfl
      rw [← hindex]
      split_ifs <;> omega
    have hsound : ∀ s', s' ≠ .init → (s' = .open ∨ s' = .mail → index < e.data.paths.length) →
        s' ≠ .mail → Sound q s' { e with
          data := { e.data with unlinklist := [], index := index }
          hist := { e.hist with unlinked := drops e.hist.committed } } := by
      intro s' hinit hlt hmail
      exact ⟨h.crashed, List.append_nil _, h.mails, h.perm, fun hs => absurd hs hinit, hlt,
        fun _ => hle, fun hs => absurd hs hmail⟩
    split_ifs with hlast hwait
    · show Sound q c.state _
      rw [hc]
      exact hsound .next nofun (by simp) nofun
    · have hq : q = [] := by
        rw [← List.isEmpty_iff, ← hempty]
        simpa using hwait
      refine ⟨hq, h.crashed, rfl, ?_⟩
      have hperm := h.perm
      rw [hq] at hperm
      exact hperm
    · exact hsound .open nofun (fun _ => by omega) nofun

theorem good_open (h : Sound q .open e) : Good conf maxPathLen q (stateOpen c e) := by
  have hlt := h.index (.inl rfl)
  unfold stateOpen
  rw [List.getElem?_eq_getElem hlt]
  dsimp only
  split
  · exact ⟨h.crashed, ⟨_, h.unlinks⟩⟩
  · exact h.move _ rfl nofun (fun _ => hlt) nofun fun _ => rfl

/-- A file is read, and its path is hung on the mail. -/
theorem good_read (h : Sound q .mail e) (hc : c.state = .mail) {size : ℕ}
    (hsize : conf.delBig = true → size ≤ conf.maxSize) (name : List Char) :
    Good conf maxPathLen q (readMail conf name size c e) := by
  have hdead : Dead e := ⟨h.crashed, ⟨_, h.unlinks⟩⟩
  unfold readMail
  split_ifs with hopen hzero hbig
  · exact hdead
  · -- an empty mail is not queued
    refine ⟨hdead, fun _ hfull => absurd ?_ hfull, fun hover => ?_⟩
    · simp [Mail.withBody, Mail.trimFrom, Mail.size]
    · simp [Mail.size] at hover
  · -- nor is one that is too big, and it is not committed
    refine ⟨hdead, fun hfits => ?_, fun _ hdel => ?_⟩
    · simp [Mail.size] at hfits
      omega
    · exact absurd (hsize hdel) (by omega)
  · split
    · exact hdead
    · next bytes _ =>
      split_ifs with hshort
      · exact hdead
      · refine Outcome.mail ⟨h.crashed, ⟨_, h.unlinks⟩⟩ (fun m hm => ?_) fun q' n x hq hx =>
          hq.commit .drop hx
        show Sound (q ++ [m]) c.state _
        rw [hc]
        refine ⟨h.crashed, h.unlinks, ?_, ?_, nofun, h.index, nofun, h.dirp⟩
        · intro x hx
          rcases List.mem_append.mp hx with hx | hx
          · exact h.mails x hx
          · rw [List.mem_singleton.mp hx, hm]
            rfl
        · have hlast : [m].filterMap Mail.auxdata = [name] := by
            rw [List.filterMap_cons_some hm]
            rfl
          rw [List.filterMap_append, hlast, List.append_assoc]
          refine List.Perm.trans (List.perm_append_comm.append_left _) ?_
          rw [← List.append_assoc]
          exact h.perm.append_right _

/-- A mail is read, where its path fits. -/
theorem good_mail (h : Sound q .mail e) (hc : c.state = .mail)
    (hfits : fits conf maxPathLen e = true) :
    Good conf maxPathLen q (stateMail conf maxPathLen c e) := by
  have hlt := h.index (.inr rfl)
  obtain ⟨dps, hdps⟩ := Option.isSome_iff_exists.mp (h.dirp rfl)
  have hdead : Dead e := ⟨h.crashed, ⟨_, h.unlinks⟩⟩
  unfold fits at hfits
  unfold stateMail
  rw [List.getElem?_eq_getElem hlt, hdps] at hfits ⊢
  dsimp only at hfits ⊢
  cases hnext : nextFile maxPathLen e.world e.data.paths[e.data.index] dps with
  | done =>
    dsimp only
    split_ifs
    · exact hdead
    · exact h.move _ rfl nofun (by simp) (fun _ => Nat.le_of_lt hlt) nofun
  | error => exact hdead
  | file name size rest =>
    rw [hnext] at hfits
    have hsound : Sound q .mail { e with data := { e.data with dirp := some rest } } :=
      h.move _ rfl nofun (fun _ => hlt) nofun fun _ => rfl
    refine good_read hsound hc (fun hdel => ?_) name
    simpa [hdel] using hfits

/-! ## The loop -/

/-- The invariant of the fetch loop. -/
def inv (conf : Conf) (maxPathLen : ℕ) :
    LoopInv (fetcher conf maxPathLen) conf (FitsGuard conf maxPathLen) noCommitGuard where
  run q c e := Sound q c.state e
  done := Done
  dead := Dead
  run_dead h := h.dead
  done_dead h := ⟨h.crashed, [], by rw [List.append_nil, h.unlinks]⟩
  dead_abort h := ⟨h.crashed, h.unlinks⟩
  dead_auxfree h := h
  run_flags _ _ h := h
  run_input _ h := ⟨h.crashed, h.unlinks, h.mails, h.perm, h.init, h.index, h.next, h.dirp⟩
  done_input _ h := ⟨h.empty, h.crashed, h.unlinks, h.perm⟩
  state := by
    intro q c e h hguard hempty
    show Good conf maxPathLen q (state conf maxPathLen c e)
    unfold state
    cases hc : c.state with
    | init => exact good_init (hc ▸ h)
    | next => exact good_next (hc ▸ h) hempty hc
    | «open» => exact good_open (hc ▸ h)
    | mail => exact good_mail (hc ▸ h) hc (hguard hc)
  commit dec h hx _ := h.commit dec hx
  commit_done dec h hx _ := by
    rw [h.empty] at hx
    cases hx

/-- What a fetch owes in a state that it gets to: each mail on the queue has the path of its file,
and each commit has found it; only files of dropped mails have been unlinked; and when the fetch
has ended without an error, all of these. -/
structure UnlinksDropped (l : Loop Env State (List Char)) : Prop where
  crashed : l.data.hist.crashed = false
  paths : l.Running → (∀ m ∈ l.queue, m.auxdata.isSome) ∧
    (l.queue.filterMap Mail.auxdata ++ l.data.hist.committed.map Prod.fst).Perm l.data.hist.handed
  before : l.data.hist.unlinked <+: drops l.data.hist.committed
  ended : l.ended = true → l.aborted = false → l.data.hist.unlinked = drops l.data.hist.committed ∧
    (l.data.hist.committed.map Prod.fst).Perm l.data.hist.handed

/-- A fetch in which no file that is too big is come to, while such mails are to be deleted, unlinks
the files of the mails that are committed as dropped, and no others. -/
theorem unlinksDropped_of_fits {conf : Conf} {maxPathLen : ℕ} {poll : Bool}
    {maildirs : List (List Char)} {w : World} {l : Loop Env State (List Char)}
    (h : Lib.Runs.Reach (step (fetcher conf maxPathLen) conf)
      (stepGuard conf (FitsGuard conf maxPathLen) noCommitGuard)
      (begin conf maxPathLen poll maildirs w) l) : UnlinksDropped l := by
  have hinit : Sound [] .init { data := { maildirs := maildirs }, world := w } :=
    ⟨rfl, rfl, nofun, .refl _, fun _ => ⟨rfl, rfl⟩, by simp, nofun, nofun⟩
  have hinv : (inv conf maxPathLen).Holds l := LoopInv.holds_reach hinit h
  refine ⟨hinv.dead.crashed, fun hrun => ?_, hinv.dead.unlinks, fun hended haborted => ?_⟩
  · have hsound : Sound l.queue l.fctx.state l.data := hinv.run hrun
    exact ⟨hsound.mails, hsound.perm⟩
  · have hcomplete : l.complete = true := by
      rw [Loop.ended, haborted, Bool.false_or, Bool.and_eq_true] at hended
      exact hended.1
    rw [LoopInv.Holds, haborted, hcomplete, if_neg Bool.false_ne_true, if_pos rfl] at hinv
    exact ⟨hinv.unlinks, hinv.perm⟩

end

/-! ## One file -/

/-- A maildir with one file of two bytes in `new`. -/
def oneFile : World where
  glob p := some [p]
  opendir path := some (if path = ['m', '/', 'n', 'e', 'w'] then [{ name := ['f'] }] else [])
  stat path :=
    if path = ['m', '/', 'n', 'e', 'w', '/', 'f'] then some { size := 2 }
    else some { isReg := false, isDir := true, size := 0 }
  read _ := some ['x', '\n']
  unlink _ := true

/-- The guard can be checked. -/
def fitsStep (conf : Conf) (maxPathLen : ℕ) (l : Loop Env State (List Char)) : Act World → Bool
  | .pass => l.fctx.state ≠ .mail || fits conf maxPathLen l.data
  | _ => true

theorem stepGuard_of_fitsStep {conf : Conf} {maxPathLen : ℕ} (l : Loop Env State (List Char))
    (a : Act World) (h : fitsStep conf maxPathLen l a = true) :
    stepGuard conf (FitsGuard conf maxPathLen) noCommitGuard l a := by
  cases a with
  | pass =>
    intro _ hmail
    simpa [fitsStep, hmail] using h
  | dequeue n d => exact fun _ _ => trivial
  | input w => trivial
  | fail => trivial

/-- Fetch the mail, drop it, and go on to the end. -/
def fetchAndDrop : List (Act World) :=
  [.pass, .pass, .pass, .pass, .pass, .pass, .dequeue 0 .drop, .pass, .pass]

/-- The end of it. -/
def dropped : Loop Env State (List Char) :=
  (Lib.Runs.exec (Lib.Runs.guarded (step (fetcher {} 1024) {}) (fitsStep {} 1024))
    (begin {} 1024 false [['m']] oneFile) fetchAndDrop).get (by decide)

/-- One mail is dropped, and its file is removed. -/
theorem unlinksDropped_of_fits_oneFile :
    dropped.ended = true ∧
      dropped.data.hist.unlinked = [['m', '/', 'n', 'e', 'w', '/', 'f']] ∧ UnlinksDropped dropped :=
  ⟨by decide, by decide, unlinksDropped_of_fits
    (Lib.Runs.reach_getGuarded stepGuard_of_fitsStep (by decide))⟩

/-- Mails of more than one byte are deleted. -/
def deleteBig : Conf := { maxSize := 1, delBig := true }

/-- The mail has been read. -/
def tooBig : Loop Env State (List Char) :=
  (Lib.Runs.exec (step (fetcher deleteBig 1024) deleteBig)
    (begin deleteBig 1024 false [['m']] oneFile) (List.replicate 6 .pass)).get (by decide)

/-- It is committed without a path. -/
theorem deleteBig_crashes :
    ∃ l, Lib.Runs.Reach (step (fetcher deleteBig 1024) deleteBig) Lib.Runs.anyStep
        (begin deleteBig 1024 false [['m']] oneFile) l ∧ ¬ UnlinksDropped l := by
  refine ⟨tooBig, Lib.Runs.reach_get _, fun hall => ?_⟩
  have hcrashed : tooBig.data.hist.crashed = true := by decide
  rw [hall.crashed] at hcrashed
  cases hcrashed

end Fdm.FetchMaildir
