import Fdm.Account.Queues

/-!
# Purging

`fetch_purge` counts the mails that have left the queue: each pass of the loop asks it once whether
the fetcher is to purge. It is run here next to a record of the last time that it said so.
-/

namespace Fdm.Account

open Rules
open Lib.Runs (Reach anyStep exec guarded reach_of_exec reach_get)

variable {κ δ υ σ γ ρ : Type}

/-! ## Requests -/

def At.isFetching : At ρ → Bool
  | .fetching => true
  | _ => false

/-- `fetch_purge` returns 1. -/
def requests (conf : Conf κ δ σ) (s : Loop κ δ υ σ γ ρ) : Bool :=
  (fetchPurge conf { s with purge := false }).purge

/-- The fetcher is called in this pass. -/
def Called (conf : Conf κ δ σ) (s : Loop κ δ υ σ γ ρ) : Prop :=
  s.pc.isFetching = true ∧ (updateHolding conf (fetchPurge conf s)).holding = false ∧
    s.complete = false

/-- The loop, and how many mails had been dropped and kept when a purge was last requested. -/
structure Watched (κ δ υ σ γ ρ : Type) where
  loop : Loop κ δ υ σ γ ρ
  dropped : ℕ := 0
  kept : ℕ := 0

/-- One step of the loop. -/
def watchedStep (env : Env κ δ υ σ γ ρ) (conf : Conf κ δ σ) (w : Watched κ δ υ σ γ ρ)
    (i : Input σ ρ) : Option (Watched κ δ υ σ γ ρ) :=
  (step env conf w.loop i).map fun t =>
    if w.loop.pc.isFetching && requests conf w.loop then ⟨t, w.loop.dropped, w.loop.kept⟩
    else { w with loop := t }

/-- As many mails as `purge-after` says have been processed since the last request, and one of them
has been dropped. -/
def Due (conf : Conf κ δ σ) (w : Watched κ δ υ σ γ ρ) : Prop :=
  w.dropped + w.kept + conf.purgeAfter ≤ w.loop.dropped + w.loop.kept ∧ w.dropped < w.loop.dropped

/-- When a purge is due and the fetcher is called, `FETCH_PURGE` is set. -/
def Heard (conf : Conf κ δ σ) (w : Watched κ δ υ σ γ ρ) : Prop :=
  Called conf w.loop → Due conf w → (fetchPurge conf w.loop).purge = true

/-- The number of mails processed is a multiple of `purge-after`; and where the counters have
wrapped, neither of them is at the value that it is compared with. -/
def OnMultiple (conf : Conf κ δ σ) (w : Watched κ δ υ σ γ ρ) : Prop :=
  conf.purgeAfter ∣ (w.loop.dropped + w.loop.kept) % 2 ^ 32 ∧
    (2 ^ 32 ≤ w.loop.dropped + w.loop.kept →
      (w.loop.dropped + w.loop.kept) % 2 ^ 32 ≠ w.loop.lastTotal ∧
        w.loop.dropped % 2 ^ 32 ≠ w.dropped % 2 ^ 32)

/-! ## One step -/

section

variable {env : Env κ δ υ σ γ ρ} {conf : Conf κ δ σ} {s t : Loop κ δ υ σ γ ρ}

/-- When a purge is asked for: the count is a multiple, and some mail was dropped since. -/
theorem requests_iff (hk : 0 < conf.purgeAfter) : requests conf s = true ↔
    (s.dropped + s.kept) % 2 ^ 32 ≠ s.lastTotal ∧
      conf.purgeAfter ∣ (s.dropped + s.kept) % 2 ^ 32 ∧ s.lastDropped ≠ s.dropped % 2 ^ 32 := by
  have hk' : conf.purgeAfter ≠ 0 := by omega
  rw [requests, fetchPurge, if_neg hk', Nat.dvd_iff_mod_eq_zero]
  dsimp only
  split_ifs with hn hd
  · simp only [false_iff]
    omega
  · simp [hd]
  · have hstopped : (s.dropped + s.kept) % 2 ^ 32 ≠ s.lastTotal ∧
        (s.dropped + s.kept) % 2 ^ 32 % conf.purgeAfter = 0 := by omega
    exact iff_of_true rfl ⟨hstopped.1, hstopped.2, hd⟩

/-- The flag is only set: the state function clears it. -/
theorem fetchPurge_purge : (fetchPurge conf s).purge = (s.purge || requests conf s) := by
  unfold requests fetchPurge
  dsimp only
  split_ifs <;> simp

/-- Where `fetch_purge` leaves its two variables. -/
theorem fetchPurge_last (hk : 0 < conf.purgeAfter) :
    (fetchPurge conf s).lastDropped =
        (if requests conf s then s.dropped % 2 ^ 32 else s.lastDropped) ∧
      ((fetchPurge conf s).lastTotal = s.lastTotal ∧ requests conf s = false ∨
        (fetchPurge conf s).lastTotal = (s.dropped + s.kept) % 2 ^ 32 ∧
          (requests conf s = true ∨ s.lastDropped = s.dropped % 2 ^ 32)) := by
  have hk' : conf.purgeAfter ≠ 0 := by omega
  unfold requests fetchPurge
  dsimp only
  split_ifs <;> simp_all

/-- Mails leave the queue, and `fetch_purge` is not called. -/
structure Counts (s t : Loop κ δ υ σ γ ρ) : Prop where
  dropped : s.dropped ≤ t.dropped
  kept : s.kept ≤ t.kept
  lastTotal : t.lastTotal = s.lastTotal
  lastDropped : t.lastDropped = s.lastDropped

theorem counts_startPass : Counts s (startPass s).2 := by
  unfold startPass
  dsimp only
  split <;> exact ⟨le_rfl, le_rfl, rfl, rfl⟩

/-- A mail that leaves is counted once, as it was decided about. -/
theorem counts_fetchDequeue (conf : Conf κ δ σ) (s : Loop κ δ υ σ γ ρ) (fails : Bool)
    (mctx : MailCtx κ δ υ σ) : Counts s (fetchDequeue conf fails mctx s) := by
  unfold fetchDequeue
  dsimp only
  split
  · exact ⟨by dsimp only; split <;> omega, by dsimp only; split <;> omega, rfl, rfl⟩
  · exact ⟨by dsimp only; split <;> omega, by dsimp only; split <;> omega, rfl, rfl⟩

theorem counts_fetchMatch (fails : Bool) (msgp : Option (Msg ρ)) :
    Counts s (fetchMatch env conf fails msgp s).2 := by
  unfold fetchMatch
  split
  · exact ⟨le_rfl, le_rfl, rfl, rfl⟩
  · dsimp only
    split
    case h_3 =>
      -- a mail is counted when it leaves the queue
      obtain ⟨hdropped, hkept, htotal, hlast⟩ := counts_fetchDequeue conf
        { s.called _ msgp _ with todo := _ } fails _
      exact ⟨hdropped, hkept, htotal, hlast⟩
    all_goals exact ⟨le_rfl, le_rfl, rfl, rfl⟩

theorem counts_fetchDeliver (msgp : Option (Msg ρ)) :
    Counts s (fetchDeliver env msgp s).2 := by
  unfold fetchDeliver
  split
  · exact ⟨le_rfl, le_rfl, rfl, rfl⟩
  · dsimp only
    split
    all_goals exact ⟨le_rfl, le_rfl, rfl, rfl⟩

/-- Polling counts nothing. -/
theorem counts_preparePoll (conf : Conf κ δ σ) (s : Loop κ δ υ σ γ ρ) (sockets : ℕ) :
    Counts s (preparePoll conf sockets s) := by
  unfold preparePoll
  split_ifs
  all_goals exact ⟨le_rfl, le_rfl, rfl, rfl⟩

theorem counts_fetchEnqueue (fails : Bool) (m : MailData σ) :
    Counts s (fetchEnqueue conf fails m s) := by
  unfold fetchEnqueue
  dsimp only
  split_ifs
  all_goals exact ⟨le_rfl, le_rfl, rfl, rfl⟩

theorem counts_handleFetch (conf : Conf κ δ σ) (s : Loop κ δ υ σ γ ρ) (i : Input σ ρ) :
    Counts s (handleFetch conf i s) := by
  unfold handleFetch
  split
  case h_2 =>
    obtain ⟨hdropped, hkept, htotal, hlast⟩ :=
      counts_preparePoll conf { s with complete := true } i.sockets
    exact ⟨hdropped, hkept, htotal, hlast⟩
  case h_4 => exact counts_preparePoll conf s i.sockets
  case h_5 m _ => exact counts_fetchEnqueue i.fails m
  all_goals exact ⟨le_rfl, le_rfl, rfl, rfl⟩

/-- Behind `fetch_purge` nothing happens to its counters. -/
theorem counts_callFetch (i : Input σ ρ) : Counts (fetchPurge conf s) (callFetch conf i s) := by
  obtain ⟨holding, hholding⟩ := updateHolding_eq conf (fetchPurge conf s)
  unfold callFetch
  dsimp only
  rw [hholding]
  split
  · obtain ⟨hdropped, hkept, htotal, hlast⟩ := counts_handleFetch conf
      { fetchPurge conf s with
        holding := holding
        calls := (fetchPurge conf s).calls ++
          [⟨decide ((fetchPurge conf s).queued = 0), (fetchPurge conf s).mails.length⟩]
        purge := (fetchPurge conf s).purge && !i.purged } i
    exact ⟨hdropped, hkept, htotal, hlast⟩
  · obtain ⟨hdropped, hkept, htotal, hlast⟩ := counts_preparePoll conf
      { fetchPurge conf s with holding := holding } i.sockets
    exact ⟨hdropped, hkept, htotal, hlast⟩

/-- A step calls `fetch_purge` just when the fetcher is next. -/
theorem counts_step {i : Input σ ρ} (hs : step env conf s i = some t) :
    Counts (if s.pc.isFetching then fetchPurge conf s else s) t := by
  rw [step, Option.bind_eq_some_iff] at hs
  obtain ⟨⟨reads, u⟩, hnext, harrive⟩ := hs
  have hcounts : Counts (if s.pc.isFetching then fetchPurge conf s else s) u := by
    unfold next at hnext
    split at hnext
    case h_1 hpc =>
      obtain rfl := congrArg Prod.snd (Option.some.inj hnext)
      rw [hpc]
      exact counts_startPass
    case h_2 msgp hpc =>
      obtain rfl := congrArg Prod.snd (Option.some.inj hnext)
      rw [hpc]
      exact counts_fetchMatch i.fails msgp
    case h_3 msgp hpc =>
      obtain rfl := congrArg Prod.snd (Option.some.inj hnext)
      rw [hpc]
      exact counts_fetchDeliver msgp
    case h_4 hpc =>
      obtain rfl := congrArg Prod.snd (Option.some.inj hnext)
      rw [hpc]
      exact counts_callFetch i
    case h_5 hpc =>
      obtain rfl := congrArg Prod.snd (Option.some.inj hnext)
      rw [hpc, if_neg (show ¬ (At.polling _ : At ρ).isFetching = true from Bool.false_ne_true)]
      dsimp only
      split <;> exact ⟨le_rfl, le_rfl, rfl, rfl⟩
    case h_6 => cases hnext
  obtain ⟨hdropped, hkept, htotal, hlast⟩ := hcounts
  dsimp only at harrive
  split at harrive
  · cases harrive
    exact ⟨hdropped, hkept, htotal, hlast⟩
  · cases harrive

end

/-! ## Runs -/

section

variable {env : Env κ δ υ σ γ ρ} {conf : Conf κ δ σ} {w w' : Watched κ δ υ σ γ ρ}

/-- `last_dropped` is from the last request. `last_total` is from the last time that `fetch_purge`
has stopped at a multiple: `dropped` and `kept` mails had been processed then. -/
structure Recorded (w : Watched κ δ υ σ γ ρ) (dropped kept : ℕ) : Prop where
  lastDropped : w.loop.lastDropped = w.dropped % 2 ^ 32
  lastTotal : w.loop.lastTotal = (dropped + kept) % 2 ^ 32
  wrapped : dropped % 2 ^ 32 = w.dropped % 2 ^ 32
  dropped_le : w.dropped ≤ dropped ∧ dropped ≤ w.loop.dropped
  kept_le : w.kept ≤ kept ∧ kept ≤ w.loop.kept

/-- A step keeps what is recorded: `last_dropped` changes with a request, `last_total` with a stop.
-/
theorem recorded_step {i : Input σ ρ} (hk : 0 < conf.purgeAfter)
    (h : ∃ dropped kept, Recorded w dropped kept) (hs : watchedStep env conf w i = some w') :
    ∃ dropped kept, Recorded w' dropped kept := by
  obtain ⟨d, k, hlastDropped, hlastTotal, hwrapped, hd, hkept⟩ := h
  rw [watchedStep, Option.map_eq_some_iff] at hs
  obtain ⟨t, hstep, rfl⟩ := hs
  have hcounts := counts_step hstep
  cases hpc : w.loop.pc.isFetching with
  | false =>
    -- `fetch_purge` is not called, so that its variables stay
    rw [hpc, if_neg Bool.false_ne_true] at hcounts
    obtain ⟨hdropped, hkept', htotal, hlast⟩ := hcounts
    rw [Bool.false_and, if_neg Bool.false_ne_true]
    exact ⟨d, k, hlast.trans hlastDropped, htotal.trans hlastTotal, hwrapped,
      ⟨hd.1, hd.2.trans hdropped⟩, hkept.1, hkept.2.trans hkept'⟩
  | true =>
    rw [hpc, if_pos rfl] at hcounts
    obtain ⟨hdropped, hkept', htotal, hlast⟩ := hcounts
    obtain ⟨total, dropped, purge, heq⟩ := fetchPurge_eq conf w.loop
    have hdropped' : w.loop.dropped ≤ t.dropped := by rwa [heq] at hdropped
    have hkept'' : w.loop.kept ≤ t.kept := by rwa [heq] at hkept'
    obtain ⟨hlastDropped', hlastTotal'⟩ := fetchPurge_last (s := w.loop) hk
    rw [← hlast] at hlastDropped'
    rw [← htotal] at hlastTotal'
    cases hreq : requests conf w.loop with
    | true =>
      -- the request is recorded together with the variables
      simp only [hreq, if_true, Bool.true_and] at hlastDropped' hlastTotal' ⊢
      refine ⟨w.loop.dropped, w.loop.kept, hlastDropped', ?_, rfl, ⟨le_rfl, hdropped'⟩, le_rfl,
        hkept''⟩
      simpa using hlastTotal'
    | false =>
      simp only [hreq, Bool.false_eq_true, if_false] at hlastDropped'
      simp only [hreq, Bool.false_eq_true, false_or, and_true] at hlastTotal'
      simp only [Bool.and_false, Bool.false_eq_true, if_false]
      cases hlastTotal' with
      | inl hsame =>
        exact ⟨d, k, hlastDropped'.trans hlastDropped, hsame.trans hlastTotal, hwrapped,
          ⟨hd.1, hd.2.trans hdropped'⟩, hkept.1, hkept.2.trans hkept''⟩
      | inr hstopped =>
        -- a multiple with nothing dropped: `last_total` goes on without a request
        exact ⟨w.loop.dropped, w.loop.kept, hlastDropped'.trans hlastDropped, hstopped.1,
          hstopped.2.symm.trans hlastDropped, ⟨hd.1.trans hd.2, hdropped'⟩, hkept.1.trans hkept.2,
          hkept''⟩

/-- With the record the loop goes through the same states. -/
theorem exists_watched {s s' : Loop κ δ υ σ γ ρ} (h : Reach (step env conf) anyStep s s')
    (dropped kept : ℕ) :
    ∃ w, Reach (watchedStep env conf) anyStep ⟨s, dropped, kept⟩ w ∧ w.loop = s' := by
  induction h with
  | refl => exact ⟨_, .refl, rfl⟩
  | tail _ _ hs ih =>
    obtain ⟨w, hw, rfl⟩ := ih
    refine ⟨_, hw.tail trivial ((Option.map_eq_some_iff).2 ⟨_, hs, rfl⟩), ?_⟩
    split <;> rfl

/-- A purge that is due is requested just when the number of mails is a multiple. -/
theorem requests_of_due (hk : 0 < conf.purgeAfter) (h : ∃ dropped kept, Recorded w dropped kept)
    (hdue : Due conf w) : requests conf w.loop = true ↔ OnMultiple conf w := by
  obtain ⟨d, k, hlastDropped, hlastTotal, hwrapped, hd, hkept⟩ := h
  obtain ⟨htotal, hdropped⟩ := hdue
  rw [requests_iff hk, hlastDropped]
  constructor
  · rintro ⟨hne, hdvd, hlast⟩
    exact ⟨hdvd, fun _ => ⟨hne, hlast.symm⟩⟩
  · rintro ⟨hdvd, hwrap⟩
    by_cases hlarge : 2 ^ 32 ≤ w.loop.dropped + w.loop.kept
    · exact ⟨(hwrap hlarge).1, hdvd, (hwrap hlarge).2.symm⟩
    · -- the counters have not wrapped, so the mails dropped since then show in both
      have hne : d ≠ w.loop.dropped := by
        intro heq
        omega
      refine ⟨?_, hdvd, by omega⟩
      rw [hlastTotal]
      omega

/-- A purge is asked for only when something was dropped. -/
theorem dropped_of_requests (hk : 0 < conf.purgeAfter)
    (h : ∃ dropped kept, Recorded w dropped kept) (hreq : requests conf w.loop = true) :
    w.dropped < w.loop.dropped := by
  obtain ⟨d, k, hlastDropped, -, -, hd, -⟩ := h
  have hne := ((requests_iff hk).1 hreq).2.2
  rw [hlastDropped] at hne
  have hle : w.dropped ≤ w.loop.dropped := hd.1.trans hd.2
  have hdiff : w.dropped ≠ w.loop.dropped := fun heq => hne (by rw [heq])
  omega

end

/-- The counters begin at zero. -/
theorem recorded_init (world : γ) :
    Recorded ({ loop := { world := world } } : Watched κ δ υ σ γ ρ) 0 0 :=
  ⟨rfl, rfl, rfl, ⟨le_rfl, le_rfl⟩, le_rfl, le_rfl⟩

/-- In every state of the loop a purge that is due is heard of just when the flag is still set, or
the number of mails processed is a multiple of `purge-after`; and no purge is requested when nothing
has been dropped since the last one. -/
theorem heard_iff (env : Env κ δ υ σ γ ρ) (conf : Conf κ δ σ) (hk : 0 < conf.purgeAfter)
    {world : γ} {w : Watched κ δ υ σ γ ρ}
    (h : Reach (watchedStep env conf) anyStep { loop := { world := world } } w) :
    (Heard conf w ↔
      (Called conf w.loop → Due conf w → w.loop.purge = true ∨ OnMultiple conf w)) ∧
    (requests conf w.loop = true → w.dropped < w.loop.dropped) := by
  have hrecorded : ∃ dropped kept, Recorded w dropped kept :=
    h.invariant (I := fun w => ∃ dropped kept, Recorded w dropped kept)
      ⟨0, 0, recorded_init world⟩ fun _ _ _ hI _ hs => recorded_step hk hI hs
  refine ⟨forall_congr' fun _ => forall_congr' fun hdue => ?_, dropped_of_requests hk hrecorded⟩
  rw [fetchPurge_purge, Bool.or_eq_true, requests_of_due hk hrecorded hdue]

instance (conf : Conf κ δ σ) (w : Watched κ δ υ σ γ ρ) : Decidable (Due conf w) :=
  inferInstanceAs (Decidable (_ ∧ _))

instance (conf : Conf κ δ σ) (s : Loop κ δ υ σ γ ρ) : Decidable (Called conf s) :=
  inferInstanceAs (Decidable (_ ∧ _))

/-- Mails with one letter go through one rule more than the others; all of them are dropped. -/
def sortingEnv : Env Unit Unit Unit Unit Unit Unit :=
  { idleEnv with tryMatch := fun _ _ m world => (some (m.data = ['x']), m, world) }

def sortingConf (purgeAfter : ℕ) : Conf Unit Unit Unit :=
  { plainConf
      { rules :=
          [.mk 0 ⟨.other (), .opNone, false⟩ [] none true none []
            [.mk 1 ⟨.other (), .opNone, false⟩ [] none true none [] []]]
        implAct := some .drop } with
    queueHigh := 8
    purgeAfter := purgeAfter }

/-- Three mails: the first one is dropped alone, the other two in the same pass. -/
def threeMails : List (Input Unit Unit) :=
  [{}, {}, {}, { fetch := .mail { data := ['y'], rest := () } },
    {}, {}, {}, {}, { fetch := .mail { data := ['x'], rest := () } },
    {}, {}, {}, {}, {}, { fetch := .mail { data := ['y'], rest := () } },
    {}, {}, {}, {}, {}, { fetch := .again }, {}, {}, {}, {}, {}]

theorem heard_iff_three :
    0 < (sortingConf 3).purgeAfter ∧
    (exec (watchedStep sortingEnv (sortingConf 3)) { loop := { world := () } } threeMails).isSome =
      true ∧
    ∀ w, exec (watchedStep sortingEnv (sortingConf 3)) { loop := { world := () } } threeMails =
        some w →
      (Heard (sortingConf 3) w ↔ (Called (sortingConf 3) w.loop → Due (sortingConf 3) w →
        w.loop.purge = true ∨ OnMultiple (sortingConf 3) w)) ∧
      (requests (sortingConf 3) w.loop = true → w.dropped < w.loop.dropped) :=
  ⟨by decide, by decide, fun _ hw => heard_iff sortingEnv _ (by decide) (reach_of_exec hw)⟩

/-- The loop behind them, about to call the fetcher. -/
def jumped : Watched Unit Unit Unit Unit Unit Unit :=
  (exec (watchedStep sortingEnv (sortingConf 2)) { loop := { world := () } } threeMails).get
    (by decide)

/-- With `purge-after 2` three mails have been dropped and no purge has been requested. -/
theorem not_heard_jumped :
    ∃ w, Reach (watchedStep sortingEnv (sortingConf 2)) anyStep { loop := { world := () } } w ∧
      ¬ Heard (sortingConf 2) w := by
  refine ⟨jumped, reach_get _, fun hheard => ?_⟩
  have hflag := hheard (by decide) (by decide)
  exact absurd hflag (by decide)

end Fdm.Account
