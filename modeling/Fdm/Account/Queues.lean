import Fdm.Account.Defs
import Fdm.Rules.Theorems
import Mathlib.Data.List.Perm.Basic
import Mathlib.Data.List.Nodup

/-!
# The queues

What is put on the match queue stays on one of the two queues until it leaves, once. The counters
say what the lists say.
-/

namespace Fdm.Account

open Rules Lib.Runs

variable {κ δ υ σ γ ρ : Type}

/-- The commit of a mail that was queued. -/
def Commit.mail : Commit → Option (ℕ × Decision)
  | queued idx decision => some (idx, decision)
  | oversize => none

/-- What holds of the queues and the counters in every state of the loop. -/
structure Conserved (conf : Conf κ δ σ) (s : Loop κ δ υ σ γ ρ) : Prop where
  queued : s.queued = s.mails.length
  bound : s.queued ≤ conf.queueHigh
  nodup : s.enqueued.Nodup
  /-- Each mail that was put on the queue is there or has left it. -/
  perm : (s.left.map Left.idx ++ s.mails.map MailCtx.idx).Perm s.enqueued
  final : ∀ l ∈ s.left, l.final = finalDecision conf l.decision
  commits : conf.commit = true →
    s.commits.filterMap Commit.mail = s.left.map fun l => (l.idx, l.final)
  empty : ∀ call ∈ s.calls, call.empty = true ↔ call.mails = 0

/-- The loop has been aborted. -/
def At.isAborted : At ρ → Bool
  | aborted => true
  | _ => false

/-- The loop has come to its end without an error. -/
def At.isFinished : At ρ → Bool
  | finished => true
  | _ => false

/-- Neither queue is being gone through. -/
def At.isBetween : At ρ → Bool
  | matching _ => false
  | delivering _ => false
  | aborted => false
  | fatal => false
  | _ => true

/-- The invariant; when the commit of a mail fails, it is counted and does not leave. -/
structure Inv (conf : Conf κ δ σ) (s : Loop κ δ υ σ γ ρ) : Prop extends Conserved conf s where
  enqueued : ∀ n ∈ s.enqueued, n ≤ s.idx
  total : s.pc.isAborted = false → s.dropped + s.kept = s.left.length
  finished : s.pc.isFinished = true → s.queued = 0
  todo : s.pc.isBetween = true → s.todo = []

/-- What the invariant says something about, apart from the queues. -/
structure Books where
  queued : ℕ
  dropped : ℕ
  kept : ℕ
  idx : ℕ
  enqueued : List ℕ
  left : List Left
  commits : List Commit
  calls : List Call

def Loop.books (s : Loop κ δ υ σ γ ρ) : Books :=
  ⟨s.queued, s.dropped, s.kept, s.idx, s.enqueued, s.left, s.commits, s.calls⟩

section

variable {env : Env κ δ υ σ γ ρ} {conf : Conf κ δ σ} {s t : Loop κ δ υ σ γ ρ}

/-- Mails move between the queues, and nothing else happens. -/
theorem Inv.move (h : Inv conf s) (hbooks : t.books = s.books)
    (hmails : (t.mails.map MailCtx.idx).Perm (s.mails.map MailCtx.idx))
    (haborted : t.pc.isAborted = false → s.pc.isAborted = false)
    (hfinished : t.pc.isFinished = true → s.queued = 0)
    (htodo : t.pc.isBetween = true → t.todo = []) : Inv conf t := by
  obtain ⟨hqueued, hdropped, hkept, hidx, henqueued, hleft, hcommits, hcalls⟩ :=
    Books.mk.inj hbooks
  have hlength : t.mails.length = s.mails.length := by simpa using hmails.length_eq
  constructor
  · constructor
    · rw [hqueued, hlength, h.queued]
    · rw [hqueued]
      exact h.bound
    · rw [henqueued]
      exact h.nodup
    · rw [henqueued, hleft]
      exact (hmails.append_left _).trans h.perm
    · rw [hleft]
      exact h.final
    · rw [hcommits, hleft]
      exact h.commits
    · rw [hcalls]
      exact h.empty
  · rw [henqueued, hidx]
    exact h.enqueued
  · intro hnot
    rw [hdropped, hkept, hleft]
    exact h.total (haborted hnot)
  · rw [hqueued]
    exact hfinished
  · exact htodo

/-- A mail leaves the queue, or its commit fails. -/
theorem inv_fetchDequeue (h : Inv conf s) (hbooks : t.books = s.books) {mctx : MailCtx κ δ υ σ}
    (hmails : (mctx.idx :: t.mails.map MailCtx.idx).Perm (s.mails.map MailCtx.idx))
    (hpc : s.pc.isAborted = false) (hfinished : t.pc.isFinished = false)
    (hbetween : t.pc.isBetween = false) (fails : Bool) :
    Inv conf (fetchDequeue conf fails mctx t) := by
  obtain ⟨hqueued, hdropped, hkept, hidx, henqueued, hleft, hcommits, hcalls⟩ :=
    Books.mk.inj hbooks
  have hlength : t.mails.length + 1 = s.queued := by
    have hlen := hmails.length_eq
    simp only [List.length_cons, List.length_map] at hlen
    rw [hlen, h.queued]
  have htotal := h.total hpc
  unfold fetchDequeue
  -- the counters apart from the decision
  generalize hdecision : finalDecision conf mctx.mail.decision = decision
  have hsum : (if decision = .drop then t.dropped + 1 else t.dropped) +
      (if decision = .keep then t.kept + 1 else t.kept) = s.left.length + 1 := by
    rw [hdropped, hkept]
    cases decision <;> simp only [reduceCtorEq, if_true, if_false] <;> omega
  dsimp only
  by_cases hfail : (conf.commit && fails) = true
  · -- the mail stays on the queue, and the loop is aborted
    rw [if_pos hfail]
    have hperm : ((t.matchq ++ [mctx] ++ t.todo ++ t.deliverq).map MailCtx.idx).Perm
        (s.mails.map MailCtx.idx) := by
      refine List.Perm.trans ?_ hmails
      simp only [Loop.mails, List.map_append, List.map_cons, List.append_assoc,
        List.singleton_append]
      exact List.perm_middle
    constructor
    · constructor
      · show t.queued = _
        have hlen := hperm.length_eq
        simp only [List.length_map] at hlen
        rw [hqueued, h.queued]
        exact hlen.symm
      · show t.queued ≤ _
        exact hqueued ▸ h.bound
      · show t.enqueued.Nodup
        exact henqueued ▸ h.nodup
      · show (t.left.map Left.idx ++ _).Perm t.enqueued
        rw [henqueued, hleft]
        exact (hperm.append_left _).trans h.perm
      · show ∀ l ∈ t.left, _
        exact hleft ▸ h.final
      · show _ → t.commits.filterMap Commit.mail = t.left.map _
        rw [hcommits, hleft]
        exact h.commits
      · show ∀ call ∈ t.calls, _
        exact hcalls ▸ h.empty
    · show ∀ n ∈ t.enqueued, n ≤ t.idx
      rw [henqueued, hidx]
      exact h.enqueued
    · exact nofun
    · exact nofun
    · exact nofun
  · rw [if_neg hfail]
    constructor
    · constructor
      · show t.queued - 1 = t.mails.length
        rw [hqueued]
        omega
      · show t.queued - 1 ≤ _
        have hbound := h.bound
        rw [hqueued]
        omega
      · show t.enqueued.Nodup
        exact henqueued ▸ h.nodup
      · show ((t.left ++ [_]).map Left.idx ++ t.mails.map MailCtx.idx).Perm t.enqueued
        rw [henqueued, hleft, List.map_append, List.append_assoc]
        exact (hmails.append_left _).trans h.perm
      · show ∀ l ∈ t.left ++ [_], _
        rw [hleft]
        intro l hl
        rcases List.mem_append.mp hl with hl | hl
        · exact h.final l hl
        · rw [List.mem_singleton.mp hl]
          exact hdecision.symm
      · intro hcommit
        show (if conf.commit = true then _ else _ : List Commit).filterMap Commit.mail =
          (t.left ++ [_]).map _
        rw [if_pos hcommit, hcommits, hleft, List.filterMap_append, List.map_append, h.commits hcommit]
        rfl
      · show ∀ call ∈ t.calls, _
        exact hcalls ▸ h.empty
    · show ∀ n ∈ t.enqueued, n ≤ t.idx
      rw [henqueued, hidx]
      exact h.enqueued
    · intro _
      show _ = (t.left ++ [_]).length
      rw [hleft, List.length_append]
      exact hsum
    · intro hfin
      rw [show (_ : Loop κ δ υ σ γ ρ).pc.isFinished = t.pc.isFinished from rfl, hfinished] at hfin
      cases hfin
    · intro hbet
      rw [show (_ : Loop κ δ υ σ γ ρ).pc.isBetween = t.pc.isBetween from rfl, hbetween] at hbet
      cases hbet

/-- A pass begins with the mails where they were. -/
theorem inv_startPass (h : Inv conf s) (haborted : s.pc.isAborted = false)
    (hbetween : s.pc.isBetween = true) : Inv conf (startPass s).2 := by
  have htodo := h.todo hbetween
  unfold startPass
  dsimp only
  split
  · refine h.move rfl ?_ (fun _ => haborted) nofun nofun
    simp [Loop.mails, htodo]
  · refine h.move rfl ?_ (fun _ => haborted) nofun nofun
    simp [Loop.mails, htodo]

/-- `fetch_match` moves the mail in front to the end of a queue, or out of the loop. -/
theorem inv_fetchMatch (h : Inv conf s) (haborted : s.pc.isAborted = false)
    (hbetween : s.pc.isBetween = false) (hfinished : s.pc.isFinished = false) (fails : Bool)
    (msgp : Option (Msg ρ)) : Inv conf (fetchMatch env conf fails msgp s).2 := by
  unfold fetchMatch
  split
  · next htodo =>
    refine h.move rfl ?_ (fun _ => haborted) nofun nofun
    simp [Loop.mails, htodo]
  · next this todo htodo =>
    have hidx : (mailMatch env conf.rules this s.world msgp).mctx.idx = this.idx :=
      mailMatch_idx this s.world msgp
    dsimp only
    -- the mail goes to the end of one of the queues, or it leaves
    have hmails : (this.idx :: (s.matchq ++ todo ++ s.deliverq).map MailCtx.idx).Perm
        (s.mails.map MailCtx.idx) := by
      simp only [Loop.mails, htodo, List.map_append, List.map_cons, List.append_assoc,
        List.cons_append]
      exact List.perm_middle.symm
    have hstays : ∀ m : MailCtx κ δ υ σ, m.idx = this.idx →
        ((s.matchq ++ [m] ++ todo ++ s.deliverq).map MailCtx.idx).Perm
          (s.mails.map MailCtx.idx) := by
      intro m hm
      refine List.Perm.trans ?_ hmails
      simp only [List.map_append, List.map_cons, List.append_assoc, List.cons_append,
        List.nil_append, hm]
      exact List.perm_middle
    split
    · exact h.move rfl (hstays _ hidx) nofun nofun nofun
    · refine h.move rfl (List.Perm.trans ?_ (hstays _ hidx)) (fun _ => haborted)
        (fun hf => absurd (hfinished.symm.trans hf) Bool.false_ne_true)
        (fun hb => absurd (hbetween.symm.trans hb) Bool.false_ne_true)
      simp only [Loop.mails, List.map_append, List.map_cons, List.map_nil, List.append_assoc]
      refine List.Perm.append_left _ ?_
      rw [← List.append_assoc]
      exact List.perm_append_comm
    · refine inv_fetchDequeue (t := { s.called this msgp (mailMatch env conf.rules this s.world msgp)
        with todo := todo }) h rfl ?_ haborted hfinished hbetween fails
      rw [hidx]
      exact hmails
    · exact h.move rfl (hstays _ hidx) (fun _ => haborted)
        (fun hf => absurd (hfinished.symm.trans hf) Bool.false_ne_true)
        (fun hb => absurd (hbetween.symm.trans hb) Bool.false_ne_true)
    · exact h.move rfl (hstays _ hidx) (fun _ => haborted) nofun nofun
    · exact h.move rfl (hstays _ hidx) (fun _ => haborted)
        (fun hf => absurd (hfinished.symm.trans hf) Bool.false_ne_true)
        (fun hb => absurd (hbetween.symm.trans hb) Bool.false_ne_true)

/-- So does `fetch_deliver`. -/
theorem inv_fetchDeliver (h : Inv conf s) (haborted : s.pc.isAborted = false)
    (hbetween : s.pc.isBetween = false) (hfinished : s.pc.isFinished = false)
    (msgp : Option (Msg ρ)) : Inv conf (fetchDeliver env msgp s).2 := by
  unfold fetchDeliver
  split
  · next htodo => exact h.move rfl (List.Perm.refl _) (fun _ => haborted) nofun fun _ => htodo
  · next this todo htodo =>
    have hidx : (mailDeliver env this s.world msgp).mctx.idx = this.idx :=
      mailDeliver_idx this s.world msgp
    dsimp only
    have hdelivers : ∀ m : MailCtx κ δ υ σ, m.idx = this.idx →
        ((s.matchq ++ todo ++ (s.deliverq ++ [m])).map MailCtx.idx).Perm
          (s.mails.map MailCtx.idx) := by
      intro m hm
      simp only [Loop.mails, htodo, List.map_append, List.map_cons, List.append_assoc,
        List.cons_append, List.map_nil, hm]
      refine List.Perm.append_left _ ?_
      rw [← List.append_assoc]
      exact List.perm_append_comm
    have hmatches : ∀ m : MailCtx κ δ υ σ, m.idx = this.idx →
        ((s.matchq ++ [m] ++ todo ++ s.deliverq).map MailCtx.idx).Perm
          (s.mails.map MailCtx.idx) := by
      intro m hm
      simp only [Loop.mails, htodo, List.map_append, List.map_cons, List.append_assoc,
        List.cons_append, List.nil_append, hm]
      exact List.Perm.refl _
    split
    · exact h.move rfl (hdelivers _ hidx) nofun nofun nofun
    · exact h.move rfl (hmatches _ hidx) (fun _ => haborted)
        (fun hf => absurd (hfinished.symm.trans hf) Bool.false_ne_true)
        (fun hb => absurd (hbetween.symm.trans hb) Bool.false_ne_true)
    · exact h.move rfl (hdelivers _ hidx) (fun _ => haborted)
        (fun hf => absurd (hfinished.symm.trans hf) Bool.false_ne_true)
        (fun hb => absurd (hbetween.symm.trans hb) Bool.false_ne_true)
    · exact h.move rfl (hdelivers _ hidx) (fun _ => haborted) nofun nofun
    · exact h.move rfl (hdelivers _ hidx) (fun _ => haborted)
        (fun hf => absurd (hfinished.symm.trans hf) Bool.false_ne_true)
        (fun hb => absurd (hbetween.symm.trans hb) Bool.false_ne_true)

/-! ## The fetcher -/

variable (conf) in
/-- `fetch_purge` changes what belongs to it. -/
theorem fetchPurge_eq (s : Loop κ δ υ σ γ ρ) : ∃ total dropped purge, fetchPurge conf s =
    { s with lastTotal := total, lastDropped := dropped, purge := purge } := by
  unfold fetchPurge
  dsimp only
  split_ifs
  · exact ⟨_, _, _, rfl⟩
  · exact ⟨_, _, _, rfl⟩
  · exact ⟨_, _, _, rfl⟩
  · exact ⟨_, _, _, rfl⟩

variable (conf) in
/-- Holding is only noted. -/
theorem updateHolding_eq (s : Loop κ δ υ σ γ ρ) :
    ∃ holding, updateHolding conf s = { s with holding := holding } := by
  unfold updateHolding
  dsimp only
  split_ifs
  · exact ⟨_, rfl⟩
  · exact ⟨_, rfl⟩
  · exact ⟨_, rfl⟩
  · exact ⟨_, rfl⟩

/-- The fetcher is only called while there is room on the queue. -/
theorem lt_of_not_holding (h : (updateHolding conf s).holding = false) :
    (updateHolding conf s).queued < conf.queueHigh := by
  unfold updateHolding at h ⊢
  dsimp only at h ⊢
  by_cases hhigh : conf.queueHigh ≤
    (if s.queued ≤ conf.queueLow then { s with holding := false } else s : Loop κ δ υ σ γ ρ).queued
  · rw [if_pos hhigh] at h
    cases h
  · rw [if_neg hhigh]
    omega

/-- Polling moves no mail. -/
theorem inv_preparePoll (h : Inv conf s) (haborted : s.pc.isAborted = false) (htodo : s.todo = [])
    (sockets : ℕ) : Inv conf (preparePoll conf sockets s) := by
  unfold preparePoll
  split_ifs with hend
  · exact h.move rfl (List.Perm.refl _) (fun _ => haborted) (fun _ => hend.2) fun _ => htodo
  · exact h.move rfl (List.Perm.refl _) (fun _ => haborted) nofun fun _ => htodo

/-- A new mail joins the queue of the matches, with the next number. -/
theorem inv_fetchEnqueue (h : Inv conf s) (haborted : s.pc.isAborted = false) (htodo : s.todo = [])
    (hroom : s.queued < conf.queueHigh) (fails : Bool) (m : MailData σ) :
    Inv conf (fetchEnqueue conf fails m s) := by
  unfold fetchEnqueue
  split_ifs
  · exact h.move rfl (List.Perm.refl _) nofun nofun nofun
  · exact h.move rfl (List.Perm.refl _) (fun _ => haborted) nofun fun _ => htodo
  · exact h.move rfl (List.Perm.refl _) nofun nofun nofun
  · -- the commit of a mail that is too big
    refine ⟨⟨h.queued, h.bound, h.nodup, h.perm, h.final, fun hcommit => ?_, h.empty⟩, h.enqueued,
      fun _ => h.total haborted, nofun, fun _ => htodo⟩
    show (s.commits ++ [Commit.oversize]).filterMap Commit.mail = _
    rw [List.filterMap_append, h.commits hcommit]
    exact List.append_nil _
  · dsimp only
    split_ifs
    · exact h.move rfl (List.Perm.refl _) nofun nofun nofun
    · constructor
      · constructor
        · show s.queued + 1 = (s.matchq ++ [_] ++ s.todo ++ s.deliverq).length
          rw [h.queued]
          simp only [Loop.mails, List.length_append, List.length_singleton]
          omega
        · exact hroom
        · -- the id is new
          refine List.nodup_append.mpr ⟨h.nodup, List.nodup_singleton _, fun n hn k hk => ?_⟩
          have hle := h.enqueued n hn
          have hk := List.mem_singleton.mp hk
          omega
        · show (s.left.map Left.idx ++ (s.matchq ++ [_] ++ s.todo ++ s.deliverq).map
            MailCtx.idx).Perm (s.enqueued ++ [s.idx + 1])
          refine List.Perm.trans ?_ (h.perm.append_right _)
          simp only [Loop.mails, htodo, List.append_nil, List.map_append, List.map_cons,
            List.map_nil, List.append_assoc]
          refine List.Perm.append_left _ (List.Perm.append_left _ ?_)
          exact List.perm_append_comm
        · exact h.final
        · exact h.commits
        · exact h.empty
      · intro n hn
        show n ≤ s.idx + 1
        rcases List.mem_append.mp hn with hn | hn
        · exact Nat.le_succ_of_le (h.enqueued n hn)
        · exact (List.mem_singleton.mp hn).le
      · exact fun _ => h.total haborted
      · exact nofun
      · exact fun _ => htodo

/-- A call of the state function, which may clear `FETCH_PURGE`. -/
theorem inv_calls (h : Inv conf s) (purge : Bool) :
    Inv conf { s with calls := s.calls ++ [⟨s.queued = 0, s.mails.length⟩], purge := purge } where
  queued := h.queued
  bound := h.bound
  nodup := h.nodup
  perm := h.perm
  final := h.final
  commits := h.commits
  empty call hcall := by
    rcases List.mem_append.mp hcall with hcall | hcall
    · exact h.empty call hcall
    · rw [List.mem_singleton.mp hcall, decide_eq_true_eq, h.queued]
  enqueued := h.enqueued
  total := h.total
  finished := h.finished
  todo := h.todo

theorem inv_handleFetch (h : Inv conf s) (haborted : s.pc.isAborted = false) (htodo : s.todo = [])
    (hfinished : s.pc.isFinished = false) (hroom : s.queued < conf.queueHigh) (i : Input σ ρ) :
    Inv conf (handleFetch conf i s) := by
  unfold handleFetch
  split
  · exact h.move rfl (List.Perm.refl _) nofun nofun nofun
  · refine inv_preparePoll (h.move (t := { s with complete := true }) rfl (List.Perm.refl _)
      (fun _ => haborted) (fun hf => ?_) fun _ => htodo) haborted htodo _
    exact absurd (hfinished.symm.trans hf) Bool.false_ne_true
  · exact h.move rfl (List.Perm.refl _) (fun _ => haborted) nofun fun _ => htodo
  · exact inv_preparePoll h haborted htodo _
  · exact inv_fetchEnqueue h haborted htodo hroom _ _

/-- The fetcher is asked for a mail, and it is put into the queue. -/
theorem inv_callFetch (h : Inv conf s) (haborted : s.pc.isAborted = false) (htodo : s.todo = [])
    (hfinished : s.pc.isFinished = false) (i : Input σ ρ) : Inv conf (callFetch conf i s) := by
  unfold callFetch
  obtain ⟨total, dropped, purge, hpurge⟩ := fetchPurge_eq conf s
  have hroom := @lt_of_not_holding _ _ _ _ _ _ conf (fetchPurge conf s)
  obtain ⟨holding, hholding⟩ := updateHolding_eq conf (fetchPurge conf s)
  rw [hpurge] at hholding hroom ⊢
  rw [hholding] at hroom ⊢
  have hbase : Inv conf { s with
      lastTotal := total, lastDropped := dropped, purge := purge, holding := holding } := by
    refine h.move rfl (List.Perm.refl _) (fun _ => haborted) (fun hf => ?_) fun _ => htodo
    exact absurd (hfinished.symm.trans hf) Bool.false_ne_true
  dsimp only at hroom ⊢
  split_ifs with hcall
  · have hnot : holding = false := by
      cases holding with
      | true => cases hcall
      | false => rfl
    exact inv_handleFetch (inv_calls hbase _) haborted htodo hfinished (hroom hnot) i
  · exact inv_preparePoll hbase haborted htodo _

/-! ## Runs -/

/-- Each part of a pass keeps the count of the mails. -/
theorem inv_next {i : Input σ ρ} {reads : Bool} (h : Inv conf s)
    (hs : next env conf i s = some (reads, t)) : Inv conf t := by
  unfold next at hs
  cases hpc : s.pc with
  | top =>
    rw [hpc] at hs
    obtain rfl := congrArg Prod.snd (Option.some_inj.mp hs)
    exact inv_startPass h (by rw [hpc]; rfl) (by rw [hpc]; rfl)
  | matching msgp =>
    rw [hpc] at hs
    obtain rfl := congrArg Prod.snd (Option.some_inj.mp hs)
    exact inv_fetchMatch h (by rw [hpc]; rfl) (by rw [hpc]; rfl) (by rw [hpc]; rfl) _ _
  | delivering msgp =>
    rw [hpc] at hs
    obtain rfl := congrArg Prod.snd (Option.some_inj.mp hs)
    exact inv_fetchDeliver h (by rw [hpc]; rfl) (by rw [hpc]; rfl) (by rw [hpc]; rfl) _
  | fetching =>
    rw [hpc] at hs
    obtain rfl := congrArg Prod.snd (Option.some_inj.mp hs)
    exact inv_callFetch h (by rw [hpc]; rfl) (h.todo (by rw [hpc]; rfl)) (by rw [hpc]; rfl) _
  | polling timeout =>
    rw [hpc] at hs
    obtain rfl := congrArg Prod.snd (Option.some_inj.mp hs)
    have htodo := h.todo (by rw [hpc]; rfl)
    dsimp only
    split_ifs
    · exact h.move rfl (List.Perm.refl _) nofun nofun nofun
    · exact h.move rfl (List.Perm.refl _) (fun _ => by rw [hpc]; rfl) nofun fun _ => htodo
  | finished => rw [hpc] at hs; cases hs
  | aborted => rw [hpc] at hs; cases hs
  | fatal => rw [hpc] at hs; cases hs

theorem inv_step {i : Input σ ρ} (h : Inv conf s) (hs : step env conf s i = some t) :
    Inv conf t := by
  obtain ⟨⟨reads, u⟩, hnext, hu⟩ := Option.bind_eq_some_iff.mp hs
  have hinv := inv_next h hnext
  dsimp only at hu
  split_ifs at hu
  obtain rfl := Option.some_inj.mp hu
  exact hinv.move rfl (List.Perm.refl _) id hinv.finished hinv.todo

/-- There is no mail at first. -/
theorem inv_init (conf : Conf κ δ σ) (world : γ) :
    Inv conf ({ world := world } : Loop κ δ υ σ γ ρ) where
  queued := rfl
  bound := Nat.zero_le _
  nodup := List.nodup_nil
  perm := List.Perm.refl _
  final := nofun
  commits _ := rfl
  empty := nofun
  enqueued := nofun
  total _ := rfl
  finished := nofun
  todo _ := rfl

/-- In every state of the loop the counters say what the queues say; and when the loop has finished,
each mail that was queued has left once, with its final decision. -/
theorem queues_conserved (env : Env κ δ υ σ γ ρ) (conf : Conf κ δ σ) {world : γ}
    {s : Loop κ δ υ σ γ ρ} (h : Reach (step env conf) anyStep { world := world } s) :
    Conserved conf s ∧ (s.pc = .finished → s.matchq = [] ∧ s.deliverq = [] ∧
      (s.left.map Left.idx).Perm s.enqueued ∧ s.dropped + s.kept = s.left.length) := by
  have hinv : Inv conf s := h.invariant (inv_init conf world) fun _ _ _ hI _ hs => inv_step hI hs
  refine ⟨hinv.toConserved, fun hpc => ?_⟩
  have hqueued := hinv.finished (by rw [hpc]; rfl)
  have hmails : s.mails = [] := by
    rw [← List.length_eq_zero_iff, ← hinv.queued]
    exact hqueued
  have hempty := hmails
  simp only [Loop.mails, List.append_eq_nil_iff] at hempty
  have hperm := hinv.perm
  rw [hmails, List.map_nil, List.append_nil] at hperm
  exact ⟨hempty.1.1, hempty.2, hperm, hinv.total (by rw [hpc]; rfl)⟩

end

/-- An account with some rules, and settings that are not looked at. -/
def plainConf (rules : Rules.Conf Unit Unit) : Conf Unit Unit Unit where
  rules := rules
  timeout := 900
  queueHigh := 2
  queueLow := 1
  maxSize := 100
  trimFrom := id
  fillIn := id

/-- A mail is fetched, no rule matches it, and the fetcher has come to its end. -/
def oneMail : List (Input Unit Unit) :=
  [{}, {}, {}, { fetch := .mail { data := ['x'], rest := () } }, {}, {}, {}, {}, { fetch := .exit }]

/-- The mail has been queued, has left the queue and has been committed. -/
theorem queues_conserved_oneMail :
    (exec (step idleEnv (plainConf { rules := [] })) { world := () } oneMail).map
        (fun s => (s.enqueued, s.left, s.commits)) =
      some ([1], [⟨1, .keep, .keep⟩], [.queued 1 .keep]) ∧
      ∀ s, exec (step idleEnv (plainConf { rules := [] })) { world := () } oneMail = some s →
        Conserved (plainConf { rules := [] }) s ∧
          (s.pc = .finished → s.matchq = [] ∧ s.deliverq = [] ∧
            (s.left.map Left.idx).Perm s.enqueued ∧ s.dropped + s.kept = s.left.length) :=
  ⟨by decide, fun _ hs => queues_conserved idleEnv _ (reach_of_exec hs)⟩

end Fdm.Account
