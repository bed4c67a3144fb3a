import Fdm.Shm.Invariant

/-!
# What is left in the directory

* `files_once`: each file in the directory is held once, by a process or a message, or is left
  behind, and removing a file never fails;
* `left_iff`: nothing is left behind if and only if no step leaves something, which are few;
* `nothing_left`: and then the directory is empty when all have ended.
-/

namespace Fdm.Shm

open Lib.Holdings Lib.Runs

variable {s s' : Sys} {act : Act}

/-! ## Runs -/

theorem setFetch_ofFetch (a : ℕ) (s : Sys) : s.setFetch a (s.ofFetch a) = s := by
  unfold Sys.setFetch Sys.ofFetch
  rw [Function.update_eq_self]

/-- A fetch child that ends loses what it had lost. -/
theorem Good.ends (h : Good s) {a : ℕ} {orphans : List ℕ}
    (haccounts : Accounts { s.leave a with orphans := orphans }) :
    Good { s.leave a with orphans := orphans } :=
  ⟨haccounts, h.fatals, fun e he => h.resized e (List.mem_filter.mp he).1⟩

/-- `child_exit`: `cleanup_check` only finds what `mail_resize` has lost. -/
theorem Good.exit (h : Good s) {a : ℕ} (hfinished : s.life a = .finished) :
    Good (s.inFetch a (s.ofFetch a).check (Sys.leave a)) := by
  have hcheck := h.toAccounts.exit (a := a) (by rw [hfinished]; decide)
  unfold Sys.inFetch Proc.check
  by_cases hnil : (s.ofFetch a).clean = []
  · rw [if_pos hnil]
    dsimp only
    rw [setFetch_ofFetch]
    refine h.ends (h.toAccounts.leave (.refl _) (fun n => ?_) s.clean fun _ _ => rfl)
    rw [show s.clean a = [] from hnil, List.count_nil, Nat.zero_add]
  · rw [if_neg hnil]
    obtain ⟨e, he, hchild⟩ : ∃ e ∈ s.lost, e.1 = a := by
      by_contra hnone
      exact hnil (hcheck.mpr fun e he hchild => hnone ⟨e, he, hchild⟩)
    have hdie := h.ends (h.toAccounts.die a)
    refine ⟨⟨hdie.files, hdie.nodup, hdie.clean, hdie.parent, hdie.running, hdie.here⟩,
      fun f hf => ?_, hdie.resized⟩
    rcases List.mem_append.mp hf with hf | hf
    · exact h.fatals f hf
    · exact ⟨a, hchild ▸ h.resized e he, List.mem_singleton.mp hf⟩

/-- A `SIGTERM` removes what is in the list. -/
theorem Good.childSighandler (h : Good s) (a : ℕ) : Good (s.childSighandler a) := by
  obtain ⟨p, hp, hterm⟩ := h.toAccounts.term a
  unfold Sys.childSighandler Sys.inFetch
  rw [hp]
  exact ⟨hterm, h.fatals, fun e he => h.resized e (List.mem_filter.mp he).1⟩

/-- Before `SHM_REGISTER` a new file is in no list. -/
theorem Good.unregistered (h : Good s) {n : ℕ} (hn : n ∉ s.files) :
    Good { s with files := n :: s.files, orphans := n :: s.orphans } :=
  ⟨h.toAccounts.unregistered hn, h.fatals, h.resized⟩

/-- Nor is one behind `SHM_DEREGISTER`. -/
theorem Good.deregistered (h : Good s) {c : MailCtx} (hc : c ∈ s.mails) {n : ℕ}
    (hn : c.mail = .mapped n) :
    ∃ p, (s.ofFetch c.child).deregister n = .ok p ∧
      Good { s.setFetch c.child p with mails := s.mails.erase c, orphans := n :: s.orphans } := by
  obtain ⟨p, hp, hmove⟩ := h.toAccounts.deregistered hc hn
  exact ⟨p, hp, hmove, h.fatals, h.resized⟩

/-- Each step keeps the accounts. -/
theorem Good.step (h : Good s) (hs : step s act = some s') : Good s' := by
  cases act with
  | opens a n =>
    simp only [Shm.step] at hs
    split_ifs at hs with hcan
    obtain rfl := Option.some_inj.mp hs
    exact ⟨h.toAccounts.opens hcan.1 hcan.2.1, h.fatals, h.resized⟩
  | resizeFails c =>
    simp only [Shm.step] at hs
    split at hs
    · cases hs
    · next n hn =>
      split_ifs at hs with hcan
      obtain rfl := Option.some_inj.mp hs
      -- the file stays in the list of its process, but no mail has it
      have hmove := h.toAccounts.resizeFails hcan.1 hn
      refine ⟨⟨hmove.files, hmove.nodup, hmove.clean, hmove.parent, hmove.running, hmove.here⟩,
        fun e he => ?_, List.forall_mem_cons.mpr ⟨List.mem_cons_self, fun e he => ?_⟩⟩
      · obtain ⟨a, ha, heq⟩ := h.fatals e he
        exact ⟨a, List.mem_cons_of_mem _ ha, heq⟩
      · exact List.mem_cons_of_mem _ (h.resized e he)
  | enqueue c =>
    simp only [Shm.step] at hs
    split_ifs at hs with hcan
    obtain rfl := Option.some_inj.mp hs
    have hkeep := h.toAccounts.keep (d := { c with queued := true, idx := s.idx c.child + 1 })
      hcan.1.1 rfl rfl
    exact ⟨⟨hkeep.files, hkeep.nodup, hkeep.clean, hkeep.parent, hkeep.running, hkeep.here⟩,
      h.fatals, h.resized⟩
  | free c =>
    simp only [Shm.step] at hs
    split_ifs at hs with hcan
    obtain rfl := Option.some_inj.mp hs
    obtain ⟨p, hp, hfree⟩ := h.toAccounts.free hcan.1
    unfold Sys.inFetch
    rw [hp]
    exact ⟨hfree, h.fatals, h.resized⟩
  | ask c wrback =>
    simp only [Shm.step] at hs
    split_ifs at hs with hcan
    obtain rfl := Option.some_inj.mp hs
    have hkeep := h.toAccounts.keep (d := { c with msgid := true }) hcan.1.1 rfl rfl
    exact ⟨⟨hkeep.files, hkeep.nodup, hkeep.clean, hkeep.parent, hkeep.running, hkeep.here⟩,
      h.fatals, h.resized⟩
  | answer r c opens =>
    simp only [Shm.step] at hs
    split_ifs at hs with hcan hwrback
    · obtain ⟨m, p, hreceive, hmove⟩ :=
        h.toAccounts.takeOver hcan.2.1 hcan.1 (Reply.files_done hwrback) opens
      rw [show (Sys.ofFetch c.child { s with replies := s.replies.erase r }) = s.ofFetch c.child
        from rfl, hreceive] at hs
      obtain rfl := Option.some_inj.mp hs
      exact ⟨hmove, h.fatals, h.resized⟩
    · -- no file comes with the reply
      obtain rfl := Option.some_inj.mp hs
      have hread := h.toAccounts.read hcan.1
      rw [Reply.files_none hwrback] at hread
      exact ⟨hread.keep (d := { c with msgid := false }) hcan.2.1 rfl rfl, h.fatals, h.resized⟩
  | ignore r =>
    simp only [Shm.step] at hs
    split_ifs at hs with hcan
    obtain rfl := Option.some_inj.mp hs
    exact ⟨h.toAccounts.read hcan.1, h.fatals, h.resized⟩
  | finish a =>
    simp only [Shm.step] at hs
    split_ifs at hs
    obtain rfl := Option.some_inj.mp hs
    obtain ⟨p, hp, hfinish⟩ := h.toAccounts.finish a
    unfold Sys.inFetch
    rw [hp]
    refine ⟨hfinish (Function.update s.life a .finished)
      (fun b hb => Function.update_of_ne hb _ _) ?_, h.fatals, h.resized⟩
    rw [Function.update_self]
    decide
  | exit a =>
    simp only [Shm.step] at hs
    split_ifs at hs with hcan
    obtain rfl := Option.some_inj.mp hs
    exact h.exit hcan
  | term a =>
    simp only [Shm.step] at hs
    split_ifs at hs
    obtain rfl := Option.some_inj.mp hs
    exact h.childSighandler a
  | termOpens a n =>
    simp only [Shm.step] at hs
    split_ifs at hs with hcan
    obtain rfl := Option.some_inj.mp hs
    exact (h.unregistered hcan.2.1).childSighandler a
  | termDestroys c =>
    simp only [Shm.step] at hs
    split at hs
    · cases hs
    · next n hn =>
      split_ifs at hs with hcan
      obtain rfl := Option.some_inj.mp hs
      obtain ⟨p, hp, hdestroy⟩ := h.deregistered hcan.1 hn
      unfold Sys.inFetch
      rw [hp]
      exact hdestroy.childSighandler c.child
  | die a =>
    simp only [Shm.step] at hs
    split_ifs at hs
    obtain rfl := Option.some_inj.mp hs
    exact h.ends (h.toAccounts.die a)
  | fetch q calls =>
    simp only [Shm.step] at hs
    split_ifs at hs with hcan
    obtain rfl := Option.some_inj.mp hs
    exact h.parentFetch q hcan.2
  | deliver d error opens =>
    simp only [Shm.step] at hs
    split_ifs at hs with hcan
    obtain rfl := Option.some_inj.mp hs
    exact h.parentDeliver hcan error opens
  | crash d =>
    simp only [Shm.step] at hs
    split_ifs at hs with hcan
    obtain rfl := Option.some_inj.mp hs
    exact h.take hcan

theorem good_begin : Good {} :=
  ⟨⟨fun _ => rfl, List.nodup_nil, fun _ _ => rfl, fun _ => rfl, nofun, nofun⟩, nofun, nofun⟩

theorem reach_good (h : Reach step anyStep {} s) : Good s :=
  h.invariant good_begin fun _ _ _ hI _ hs => hI.step hs

/-! ## What is left behind -/

/-- The files that nobody will remove after a step. -/
def Sys.left (s : Sys) : Act → List ℕ
  | .answer r _ opens => if opens then [] else r.files
  | .ignore r => r.files
  | .exit a =>
    (s.lost.filter fun e => e.1 == a).map Prod.snd ++
      (s.replies.filter fun r => r.child == a).flatMap Reply.files
  | .term a => (s.replies.filter fun r => r.child == a).flatMap Reply.files
  | .termOpens a n => (s.replies.filter fun r => r.child == a).flatMap Reply.files ++ [n]
  | .termDestroys c =>
    (s.replies.filter fun r => r.child == c.child).flatMap Reply.files ++ c.files
  | .die a =>
    (s.mails.filter fun c => c.child == a).flatMap MailCtx.files ++
      ((s.lost.filter fun e => e.1 == a).map Prod.snd ++
        (s.replies.filter fun r => r.child == a).flatMap Reply.files)
  | .deliver d error opens =>
    if error ∨ (opens ∧ s.life d.child ≠ .gone) then [] else d.files
  | .crash d => d.files
  | _ => []

/-- The fetch child in which `mail_resize` fails in a step. -/
def Act.resized : Act → List ℕ
  | .resizeFails c => [c.child]
  | _ => []

/-- What has been left, and the fetch children in which `mail_resize` has failed. -/
structure Leaves (s s' : Sys) (files resized : List ℕ) : Prop where
  orphans : s'.orphans = files ++ s.orphans
  resized : s'.resized = resized ++ s.resized

/-- A reply to a fetch child that is gone leaves its file. -/
theorem leaves_send (r : Reply) (s : Sys) :
    Leaves s (s.send r) (if s.life r.child = .gone then r.files else []) [] := by
  unfold Sys.send
  split_ifs <;> exact ⟨rfl, rfl⟩

theorem leaves_sendNone {r : Reply} (hr : r.files = []) (s : Sys) : Leaves s (s.send r) [] [] := by
  have hsend := leaves_send r s
  rwa [hr, ite_self] at hsend

/-- A function of the parent leaves nothing by itself. -/
theorem leaves_inParent {t : Sys} {x : Except Fatal Proc} {k : Sys → Sys}
    (ht : t.orphans = s.orphans ∧ t.resized = s.resized)
    (hk : ∀ p, Leaves s (k (t.setParent p)) [] []) : Leaves s (t.inParent x k) [] [] := by
  unfold Sys.inParent
  split
  · next p => exact hk p
  · exact ⟨ht.1, ht.2⟩

/-- The end of `parent_deliver` leaves what its reply does. -/
theorem leaves_sendClose (d : Delivery) (error wrback : Bool) (m : Mail) (s : Sys) :
    Leaves s (s.sendClose d error wrback m)
      (if s.life d.child = .gone then Reply.files ⟨d.child, d.idx, error, wrback, m.name⟩ else [])
      [] := by
  have hsend := leaves_send ⟨d.child, d.idx, error, wrback, m.name⟩ s
  unfold Sys.sendClose Sys.inParent
  dsimp only
  split
  · exact ⟨hsend.orphans, hsend.resized⟩
  · exact ⟨hsend.orphans, hsend.resized⟩

/-- An error brings no file. -/
theorem files_error (a i : ℕ) (wrback : Bool) (name : Option ℕ) :
    Reply.files ⟨a, i, true, wrback, name⟩ = [] := rfl

/-- Neither does the reply to a command. -/
theorem files_command (a i : ℕ) (error : Bool) (name : Option ℕ) :
    Reply.files ⟨a, i, error, false, name⟩ = [] := by
  cases error <;> rfl

/-- `parent_fetch` leaves nothing, also where it fails. -/
theorem leaves_parentFetch (q : Request) (calls : Calls) (s : Sys) :
    Leaves s (s.parentFetch q calls) [] [] := by
  have hsend (t : Sys) (horphans : t.orphans = s.orphans) (hresized : t.resized = s.resized) :
      Leaves s (t.send q.error) [] [] := by
    have h := leaves_sendNone (r := q.error) rfl t
    exact ⟨h.orphans.trans horphans, h.resized.trans hresized⟩
  unfold Sys.parentFetch
  dsimp only
  split
  · exact hsend _ rfl rfl
  · by_cases hwrback : q.wrback = true
    · rw [if_pos hwrback]
      cases calls.created with
      | none => exact hsend _ rfl rfl
      | some new =>
        dsimp only
        split_ifs
        · exact ⟨rfl, rfl⟩
        · exact leaves_inParent ⟨rfl, rfl⟩ fun _ => hsend _ rfl rfl
    · rw [if_neg hwrback]
      exact ⟨rfl, rfl⟩

/-- `parent_deliver` leaves a file that cannot be opened again, or that nobody takes. -/
theorem leaves_parentDeliver (h : Good s) {d : Delivery} (hd : d ∈ s.deliveries)
    (error opens : Bool) :
    Leaves s (s.parentDeliver d error opens) (s.left (.deliver d error opens)) [] := by
  have hclose (t : Sys) (error wrback : Bool) (m : Mail) (horphans : t.orphans = s.orphans)
      (hresized : t.resized = s.resized) (hlife : t.life = s.life) :
      Leaves s (t.sendClose d error wrback m) (if s.life d.child = .gone then
        Reply.files ⟨d.child, d.idx, error, wrback, m.name⟩ else []) [] := by
    have h := leaves_sendClose d error wrback m t
    rw [hlife] at h
    exact ⟨h.orphans.trans (congrArg (_ ++ ·) horphans), h.resized.trans hresized⟩
  have hnone (t : Sys) (wrback : Bool) (m : Mail) (horphans : t.orphans = s.orphans)
      (hresized : t.resized = s.resized) (hlife : t.life = s.life) :
      Leaves s (t.sendClose d true wrback m) [] [] := by
    have h := hclose t true wrback m horphans hresized hlife
    rwa [files_error, ite_self] at h
  unfold Sys.parentDeliver Sys.left
  dsimp only
  cases hwr : d.wrMail with
  | none =>
    have hfiles : d.files = [] := by rw [Delivery.files, hwr]; rfl
    have h := hclose { s with deliveries := s.deliveries.erase d } error false (.mapped d.mail)
      rfl rfl rfl
    rw [files_command, ite_self] at h
    rw [hfiles, ite_self]
    exact h
  | some new =>
    have hfiles : d.files = [new] := by rw [Delivery.files, hwr]; rfl
    dsimp only
    by_cases herror : error = true
    · rw [if_pos herror, if_pos (.inl herror)]
      exact leaves_inParent ⟨rfl, rfl⟩ fun _ => hnone _ _ _ rfl rfl rfl
    · rw [if_neg herror]
      obtain ⟨p, hreceive, hmem, -⟩ := h.receive hd hwr opens
      rw [hreceive]
      cases opens with
      | false =>
        rw [if_neg (by simpa using herror), hfiles]
        rw [Proc.shmReopen_false]
        have hsend := leaves_sendClose d true true (.shut (some new))
          { ({ s with deliveries := s.deliveries.erase d } : Sys).setParent p with
            orphans := new :: s.orphans }
        rw [files_error, ite_self] at hsend
        exact ⟨hsend.orphans, hsend.resized⟩
      | true =>
        rw [Proc.shmReopen_true hmem]
        have hsend := hclose (({ s with deliveries := s.deliveries.erase d } : Sys).setParent
          (p.register new)) false true (.mapped new) rfl rfl rfl
        have hcond : (error = true ∨ (true = true ∧ s.life d.child ≠ .gone)) ↔
            ¬s.life d.child = .gone := by simp [herror]
        rw [if_congr hcond rfl rfl, ite_not, hfiles]
        exact hsend

/-- The replies on their way to a fetch child that gets a `SIGTERM` leave their files. -/
theorem leaves_childSighandler (h : Good s) (a : ℕ) :
    Leaves s (s.childSighandler a)
      ((s.replies.filter fun r => r.child == a).flatMap Reply.files) [] := by
  obtain ⟨p, hp, -⟩ := h.toAccounts.term a
  unfold Sys.childSighandler Sys.inFetch
  rw [hp]
  exact ⟨rfl, rfl⟩

/-- A fetch child that ends by `child_exit` leaves what `mail_resize` has lost, which
`cleanup_check` finds, and the replies on their way. -/
theorem leaves_exit (h : Good s) {a : ℕ} (hfinished : s.life a = .finished) :
    Leaves s (s.inFetch a (s.ofFetch a).check (Sys.leave a)) (s.left (.exit a)) [] := by
  have hcheck := h.toAccounts.exit (a := a) (by rw [hfinished]; decide)
  unfold Sys.inFetch Proc.check
  by_cases hnil : (s.ofFetch a).clean = []
  · -- the list is empty, so that `mail_resize` has lost nothing
    rw [if_pos hnil]
    refine ⟨?_, rfl⟩
    have hlost : (s.lost.filter fun e => e.1 == a) = [] := by
      refine List.filter_eq_nil_iff.mpr fun e he => ?_
      simpa using hcheck.mp hnil e he
    show _ ++ s.orphans = (List.map Prod.snd (s.lost.filter fun e => e.1 == a) ++ _) ++ s.orphans
    rw [hlost]
    rfl
  · -- `cleanup_check` is fatal; the child has finished and has no mail any more
    rw [if_neg hnil]
    refine ⟨?_, rfl⟩
    have hmails : (s.mails.filter fun c => c.child == a) = [] := by
      refine List.filter_eq_nil_iff.mpr fun c hc heq => ?_
      have hrunning := h.running c hc
      rw [beq_iff_eq.mp heq, hfinished] at hrunning
      cases hrunning
    show List.flatMap _ (s.mails.filter fun c => c.child == a) ++ (_ ++ (_ ++ s.orphans)) =
      (_ ++ _) ++ s.orphans
    rw [hmails, List.append_assoc]
    rfl

/-- What a step leaves behind. -/
theorem leaves_step (h : Good s) (hs : step s act = some s') :
    Leaves s s' (s.left act) act.resized := by
  cases act with
  | opens a n =>
    simp only [Shm.step] at hs
    split_ifs at hs
    obtain rfl := Option.some_inj.mp hs
    exact ⟨rfl, rfl⟩
  | resizeFails c =>
    simp only [Shm.step] at hs
    split at hs
    · cases hs
    · split_ifs at hs
      obtain rfl := Option.some_inj.mp hs
      exact ⟨rfl, rfl⟩
  | enqueue c =>
    simp only [Shm.step] at hs
    split_ifs at hs
    obtain rfl := Option.some_inj.mp hs
    exact ⟨rfl, rfl⟩
  | free c =>
    simp only [Shm.step] at hs
    split_ifs at hs with hcan
    obtain rfl := Option.some_inj.mp hs
    obtain ⟨p, hp, -⟩ := h.toAccounts.free hcan.1
    unfold Sys.inFetch
    rw [hp]
    exact ⟨rfl, rfl⟩
  | ask c wrback =>
    simp only [Shm.step] at hs
    split_ifs at hs
    obtain rfl := Option.some_inj.mp hs
    exact ⟨rfl, rfl⟩
  | answer r c opens =>
    simp only [Shm.step] at hs
    split_ifs at hs with hcan hwrback
    · have hfiles := Reply.files_done hwrback
      obtain ⟨p, hp, hfree⟩ := h.toAccounts.free hcan.2.1
      have hreceive := Proc.mailReceive_destroy hp opens r.name
      rw [show (Sys.ofFetch c.child { s with replies := s.replies.erase r }) = s.ofFetch c.child
        from rfl, hreceive] at hs
      obtain rfl := Option.some_inj.mp hs
      refine ⟨?_, rfl⟩
      show (if (p.shmReopen opens r.name).1.files = [] then r.files else []) ++ s.orphans =
        (if opens = true then [] else r.files) ++ s.orphans
      congr 1
      cases hname : r.name with
      | none =>
        rw [hfiles, hname]
        cases opens <;> rfl
      | some n =>
        -- `shm_reopen` finds the file, as the reply has it
        have hn : n ∈ r.files := by
          rw [hfiles, hname]
          exact List.mem_singleton_self n
        have hmem : n ∈ p.files := hfree.mem_of_reply hcan.1 hn
        cases opens with
        | false => rfl
        | true =>
          rw [Proc.shmReopen_true hmem]
          rfl
    · obtain rfl := Option.some_inj.mp hs
      refine ⟨?_, rfl⟩
      show s.orphans = (if opens = true then [] else r.files) ++ s.orphans
      rw [Reply.files_none hwrback, ite_self]
      rfl
  | ignore r =>
    simp only [Shm.step] at hs
    split_ifs at hs
    obtain rfl := Option.some_inj.mp hs
    exact ⟨rfl, rfl⟩
  | finish a =>
    simp only [Shm.step] at hs
    split_ifs at hs
    obtain rfl := Option.some_inj.mp hs
    obtain ⟨p, hp, -⟩ := h.toAccounts.finish a
    unfold Sys.inFetch
    rw [hp]
    exact ⟨rfl, rfl⟩
  | exit a =>
    simp only [Shm.step] at hs
    split_ifs at hs with hcan
    obtain rfl := Option.some_inj.mp hs
    exact leaves_exit h hcan
  | term a =>
    simp only [Shm.step] at hs
    split_ifs at hs
    obtain rfl := Option.some_inj.mp hs
    exact leaves_childSighandler h a
  | termOpens a n =>
    simp only [Shm.step] at hs
    split_ifs at hs with hcan
    obtain rfl := Option.some_inj.mp hs
    have hleaves := leaves_childSighandler (h.unregistered hcan.2.1) a
    exact ⟨hleaves.orphans.trans (List.append_assoc _ [n] _).symm, hleaves.resized⟩
  | termDestroys c =>
    simp only [Shm.step] at hs
    split at hs
    · cases hs
    · next n hn =>
      split_ifs at hs with hcan
      obtain rfl := Option.some_inj.mp hs
      have hfiles : c.files = [n] := congrArg Mail.files hn
      obtain ⟨p, hp, hdestroy⟩ := h.deregistered hcan.1 hn
      have hleaves := leaves_childSighandler hdestroy c.child
      unfold Sys.inFetch
      rw [hp]
      refine ⟨?_, hleaves.resized⟩
      show _ = (_ ++ c.files) ++ s.orphans
      rw [hfiles]
      exact hleaves.orphans.trans (List.append_assoc _ [n] _).symm
  | die a =>
    simp only [Shm.step] at hs
    split_ifs at hs
    obtain rfl := Option.some_inj.mp hs
    refine ⟨?_, rfl⟩
    show _ ++ (_ ++ (_ ++ s.orphans)) = (_ ++ (_ ++ _)) ++ s.orphans
    rw [List.append_assoc, List.append_assoc]
    rfl
  | fetch q calls =>
    simp only [Shm.step] at hs
    split_ifs at hs
    obtain rfl := Option.some_inj.mp hs
    exact leaves_parentFetch q calls s
  | deliver d error opens =>
    simp only [Shm.step] at hs
    split_ifs at hs with hcan
    obtain rfl := Option.some_inj.mp hs
    exact leaves_parentDeliver h hcan error opens
  | crash d =>
    simp only [Shm.step] at hs
    split_ifs at hs
    obtain rfl := Option.some_inj.mp hs
    exact ⟨rfl, rfl⟩

/-! ## Results -/

/-- In every run, each file in the directory is held once, by a process or by a message that is on
its way, or was left behind and is held by none, and nothing else is held. No process fails to find
a file in its list or to remove it, and `cleanup_check` only fails in a fetch child in which
`mail_resize` has failed. -/
theorem files_once (h : Reach step anyStep {} s) :
    s.files.Nodup ∧
      (∀ n, s.holds n + s.orphans.count n = if n ∈ s.files then 1 else 0) ∧
        ∀ e ∈ s.fatals, ∃ a ∈ s.resized, e = (.fetch a, .listNotEmpty) := by
  have hgood := reach_good h
  refine ⟨hgood.nodup, fun n => ?_, hgood.fatals⟩
  rw [← hgood.files n]
  exact hgood.nodup.count

/-- A mail is written back by a delivery. -/
def writeBack : List Act :=
  [.opens 0 5, .enqueue ⟨0, .mapped 5, false, 0, false⟩, .ask ⟨0, .mapped 5, true, 1, false⟩ true,
    .fetch ⟨0, 1, true, some 5⟩ ⟨true, some 6, true⟩, .deliver ⟨0, 1, 5, some 6⟩ false true,
    .answer ⟨0, 1, false, true, some 6⟩ ⟨0, .mapped 5, true, 1, true⟩ true, .finish 0, .exit 0]

/-- A write-back, from the first file to the end of the fetch child. -/
theorem files_once_writeBack :
    (exec step {} writeBack).isSome = true ∧
      ∀ s, exec step {} writeBack = some s →
        s.files.Nodup ∧
          (∀ n, s.holds n + s.orphans.count n = if n ∈ s.files then 1 else 0) ∧
            ∀ e ∈ s.fatals, ∃ a ∈ s.resized, e = (.fetch a, .listNotEmpty) :=
  ⟨by decide, fun _ hs => files_once (reach_of_exec hs)⟩

/-- A step leaves nothing behind. -/
def Sys.leavesNone (s : Sys) (act : Act) : Bool := (s.left act).isEmpty

theorem leavesNone_iff : s.leavesNone act = true ↔ s.left act = [] := List.isEmpty_iff

/-- Nothing was left before, and the step leaves nothing. -/
theorem orphans_step (h : Good s) (hs : step s act = some s') :
    s'.orphans = [] ↔ s.orphans = [] ∧ s.leavesNone act = true := by
  rw [leavesNone_iff, (leaves_step h hs).orphans, List.append_eq_nil_iff, and_comm]

/-- Nothing is left behind in those runs in which no step leaves something. -/
theorem left_iff {acts : List Act} (h : exec step {} acts = some s) :
    s.orphans = [] ↔ exec (guarded step Sys.leavesNone) {} acts = some s := by
  refine iff_execGuarded (I := fun s => Good s ∧ s.orphans = [])
    (B := fun s => Good s ∧ s.orphans ≠ []) ?_ ?_ ?_ ⟨good_begin, rfl⟩ h (fun h => h.2)
    (fun h => h.2)
  · exact fun s act s' hI hnone hs => ⟨hI.1.step hs, (orphans_step hI.1 hs).mpr ⟨hI.2, hnone⟩⟩
  · intro s act s' hI hsome hs
    refine ⟨hI.1.step hs, fun hnil => ?_⟩
    rw [((orphans_step hI.1 hs).mp hnil).2] at hsome
    cases hsome
  · exact fun s act s' hB hs =>
      ⟨hB.1.step hs, fun hnil => hB.2 ((orphans_step hB.1 hs).mp hnil).1⟩

/-- The delivery child ends without a report, and the file that it should have written is left. -/
theorem left_iff_crash :
    (exec step {} (writeBack.take 4 ++ [.crash ⟨0, 1, 5, some 6⟩])).isSome = true ∧
      ∀ s, exec step {} (writeBack.take 4 ++ [.crash ⟨0, 1, 5, some 6⟩]) = some s →
        (s.orphans = [] ↔
          exec (guarded step Sys.leavesNone) {}
            (writeBack.take 4 ++ [.crash ⟨0, 1, 5, some 6⟩]) = some s) :=
  ⟨by decide, fun _ hs => left_iff hs⟩

/-- A step leaves nothing behind, and `mail_resize` does not fail in it. -/
def Sys.undisturbed (s : Sys) (act : Act) : Bool := s.leavesNone act && act.resized.isEmpty

/-- `mail_resize` has not failed in this step. -/
theorem resized_step (h : Good s) (hs : step s act = some s') (hact : act.resized = []) :
    s'.resized = s.resized := by
  rw [(leaves_step h hs).resized, hact, List.nil_append]

/-- In a run of such steps a file is in the directory only while a mail of a fetch child has it, a
delivery writes to it or a reply brings it, and nothing is fatal. -/
theorem nothing_left {acts : List Act}
    (h : exec (guarded step Sys.undisturbed) {} acts = some s) :
    (∀ n ∈ s.files, (∃ c ∈ s.mails, n ∈ c.files) ∨ (∃ d ∈ s.deliveries, n ∈ d.files) ∨
      ∃ r ∈ s.replies, n ∈ r.files) ∧ s.fatals = [] := by
  have hI : Good s ∧ s.orphans = [] ∧ s.resized = [] := by
    refine invariant_of_execGuarded (I := fun s => Good s ∧ s.orphans = [] ∧ s.resized = [])
      (fun s act s' hI hkeep hs => ?_) ⟨good_begin, rfl, rfl⟩ h
    obtain ⟨hnone, hresized⟩ := Bool.and_eq_true_iff.mp hkeep
    refine ⟨hI.1.step hs, (orphans_step hI.1 hs).mpr ⟨hI.2.1, hnone⟩, ?_⟩
    exact (resized_step hI.1 hs (List.isEmpty_iff.mp hresized)).trans hI.2.2
  obtain ⟨hgood, horphans, hresized⟩ := hI
  constructor
  · intro n hn
    have hcount := hgood.files n
    -- no file is lost where `mail_resize` has not failed
    have hlost : held lostFiles s.lost n = 0 := by
      refine held_eq_zero fun e he => ?_
      have hmem := hgood.resized e he
      rw [hresized] at hmem
      cases hmem
    have hpos := List.count_pos_iff.mpr hn
    unfold Sys.holds at hcount
    rw [horphans, List.count_nil, hlost] at hcount
    by_cases hmails : 0 < held MailCtx.files s.mails n
    · exact .inl (exists_of_held_pos hmails)
    · by_cases hdeliveries : 0 < held Delivery.files s.deliveries n
      · exact .inr (.inl (exists_of_held_pos hdeliveries))
      · exact .inr (.inr (exists_of_held_pos (by omega)))
  · refine List.eq_nil_iff_forall_not_mem.mpr fun e he => ?_
    obtain ⟨a, ha, -⟩ := hgood.fatals e he
    rw [hresized] at ha
    cases ha

/-- The same write-back leaves nothing. -/
theorem nothing_left_writeBack :
    (exec (guarded step Sys.undisturbed) {} writeBack).isSome = true ∧
      ∀ s, exec (guarded step Sys.undisturbed) {} writeBack = some s →
        (∀ n ∈ s.files, (∃ c ∈ s.mails, n ∈ c.files) ∨ (∃ d ∈ s.deliveries, n ∈ d.files) ∨
          ∃ r ∈ s.replies, n ∈ r.files) ∧ s.fatals = [] :=
  ⟨by decide, fun _ hs => nothing_left hs⟩

end Fdm.Shm
