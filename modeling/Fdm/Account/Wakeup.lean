import Fdm.Account.Calls

/-!
# Waking up

When the loop waits for the parent, each mail that is queued has a request that has not been
answered. One reply is taken in a pass, so that others may be in the buffer of `pio` when the loop
goes to sleep. They are not when each request is sent with none there, or while some other mail can
go on.
-/

namespace Fdm.Account

open Rules Lib.Runs

variable {κ δ υ σ γ ρ : Type}

/-- The mail has a request without a reply. -/
def Outstanding (s : Loop κ δ υ σ γ ρ) (m : MailCtx κ δ υ σ) : Prop :=
  m.msgid ≠ 0 ∧ s.requests.count m.idx = s.taken.count m.idx + 1

/-- When the loop calls `fetch_poll` to wait, with mails on the queues, each of them has a request
without a reply, and no reply to it is in the buffer. -/
def Wakes (s : Loop κ δ υ σ γ ρ) : Prop :=
  ∀ timeout, s.pc = .polling timeout → timeout ≠ 0 → s.queued ≠ 0 →
    ∀ m ∈ s.matchq ++ s.deliverq, Outstanding s m ∧ ∀ msg ∈ s.buffer, msg.id ≠ m.msgid

/-- The condition on a step: a call that sends a request finds no reply in the buffer, and none is
read meanwhile; or some other mail, which has been tried or is on the delivery queue, does not
wait. -/
def Prompt (env : Env κ δ υ σ γ ρ) (conf : Conf κ δ σ) (s : Loop κ δ υ σ γ ρ) (i : Input σ ρ) :
    Prop :=
  match s.pc, s.todo with
  | .matching msgp, this :: _ =>
    asks this (mailMatch env conf.rules this s.world msgp).mctx = true →
      s.buffer = [] ∧ i.arrivals.isEmpty ∨ ∃ m ∈ s.matchq ++ s.deliverq, m.msgid = 0
  | .delivering msgp, this :: todo =>
    asks this (mailDeliver env this s.world msgp).mctx = true →
      s.buffer = [] ∧ i.arrivals.isEmpty ∨ ∃ m ∈ s.matchq ++ todo ++ s.deliverq, m.msgid = 0
  | _, _ => True

/-! ## The invariant -/

/-- The message of the pass. -/
def At.msgp : At ρ → Option (Msg ρ)
  | matching msgp => msgp
  | delivering msgp => msgp
  | _ => none

/-- Between the top of the loop and `fetch_poll`. -/
def At.inPass : At ρ → Bool
  | matching _ => true
  | delivering _ => true
  | fetching => true
  | polling _ => true
  | _ => false

/-- The loop goes on. -/
def At.isAlive : At ρ → Bool
  | finished => false
  | aborted => false
  | fatal => false
  | _ => true

/-- The mails that are still to be tried in this pass. -/
def Loop.ahead (s : Loop κ δ υ σ γ ρ) : List (MailCtx κ δ υ σ) :=
  match s.pc with
  | .matching _ => s.todo ++ s.deliverq
  | .delivering _ => s.todo
  | _ => []

/-- The mails that have been tried. -/
def Loop.tried (s : Loop κ δ υ σ γ ρ) : List (MailCtx κ δ υ σ) :=
  match s.pc with
  | .matching _ => s.matchq
  | .delivering _ => s.matchq ++ s.deliverq
  | _ => s.mails

/-- The mails that do not leave in this pass. -/
def Loop.settled (s : Loop κ δ υ σ γ ρ) : List (MailCtx κ δ υ σ) :=
  match s.pc with
  | .matching _ => s.matchq ++ s.deliverq
  | _ => s.mails

/-- The invariant of a prompt run. -/
structure Awake (s : Loop κ δ υ σ γ ρ) : Prop where
  ledger : Ledger s s.mails
  /-- The reply of the pass has been taken, or its mail is still to be tried. -/
  hand : ∀ r ∈ s.pc.msgp,
    s.hand = some r.id ∧ (∃ m ∈ s.ahead, m.idx = r.id ∧ m.msgid ≠ 0) ∨
      s.hand = none ∧ ∀ m ∈ s.ahead, m.msgid ≠ 0 → m.idx ≠ r.id
  none : s.pc.msgp = .none → s.hand = .none
  blocked : s.pc.inPass = true → s.blocked = s.tried.countP waits
  free : s.pc.inPass = true → s.asked = true ∨ s.hand = .none →
    s.buffer = [] ∨ ∃ m ∈ s.settled, m.msgid = 0
  timeout : ∀ timeout, s.pc = .polling timeout → timeout ≠ 0 → s.queued ≠ 0 → s.blocked = s.queued

theorem Inv.nodup_mails {conf : Conf κ δ σ} {s : Loop κ δ υ σ γ ρ} (h : Inv conf s) :
    (s.mails.map MailCtx.idx).Nodup :=
  (List.nodup_append.mp (h.perm.nodup_iff.mpr h.nodup)).2.1

/-- Of the mails that wait, one at most has some id. -/
theorem countP_waiting {mails : List (MailCtx κ δ υ σ)} (h : (mails.map MailCtx.idx).Nodup)
    {m : MailCtx κ δ υ σ} (hm : m ∈ mails) (hwaits : m.msgid ≠ 0) :
    mails.countP (waiting m.idx) = 1 := by
  have hle : mails.countP (waiting m.idx) ≤ (mails.map MailCtx.idx).count m.idx := by
    rw [List.count, List.countP_map]
    refine List.countP_mono_left fun x _ hx => ?_
    simp only [waiting, Bool.and_eq_true, decide_eq_true_eq] at hx
    simpa using hx.2
  have hone := List.nodup_iff_count_le_one.mp h m.idx
  have hpos : 0 < mails.countP (waiting m.idx) :=
    List.countP_pos_iff.mpr ⟨m, hm, by simp [waiting, waits, hwaits]⟩
  omega

/-- An awake loop does not sleep while a reply is there. -/
theorem Awake.wakes {conf : Conf κ δ σ} {s : Loop κ δ υ σ γ ρ} (h : Awake s) (hinv : Inv conf s) :
    Wakes s := by
  intro timeout hpc htimeout hqueued
  have htodo := hinv.todo (by rw [hpc]; rfl)
  have hmails : s.matchq ++ s.deliverq = s.mails := by simp [Loop.mails, htodo]
  have hpass : s.pc.inPass = true := by rw [hpc]; rfl
  -- each mail has been found blocked
  have hall : ∀ m ∈ s.mails, m.msgid ≠ 0 := by
    have hblocked := h.timeout timeout hpc htimeout hqueued
    rw [h.blocked hpass, hinv.queued, Loop.tried, hpc] at hblocked
    intro m hm
    simpa [waits] using List.countP_eq_length.mp hblocked m hm
  have hbuffer : s.buffer = [] := by
    rcases h.free hpass (.inr (h.none (by rw [hpc]; rfl))) with hbuffer | ⟨m, hm, hfree⟩
    · exact hbuffer
    · rw [Loop.settled, hpc] at hm
      exact absurd hfree (hall m hm)
  rw [hmails, hbuffer]
  intro m hm
  refine ⟨⟨hall m hm, ?_⟩, fun r hr => absurd hr List.not_mem_nil⟩
  rw [h.ledger.counts, countP_waiting hinv.nodup_mails hm (hall m hm)]

/-! ## Messages that come in -/

/-- Replies are read into the buffer. -/
theorem Ledger.arrive {s : Loop κ δ υ σ γ ρ} {mails : List (MailCtx κ δ υ σ)} (h : Ledger s mails)
    {msgs : List (Msg ρ)} (harrive : msgs.isEmpty ∨ s.canArrive msgs) :
    Ledger { s with buffer := s.buffer ++ msgs } mails where
  pos := h.pos
  ids := h.ids
  counts := h.counts
  unread id := by
    have hold := h.unread id
    rcases harrive with hempty | ⟨-, harrive⟩
    · rw [List.isEmpty_iff.mp hempty, List.append_nil]
      exact hold
    · show s.taken.count id + (s.hand.toList ++ ((s.buffer ++ msgs) ++ []).map Msg.id).count id ≤ _
      rw [List.append_nil]
      by_cases hid : ∃ msg ∈ msgs, msg.id = id
      · obtain ⟨msg, hmsg, rfl⟩ := hid
        exact harrive msg hmsg
      · have hnone : (msgs.map Msg.id).count id = 0 := by
          refine List.count_eq_zero.mpr fun hmem => hid ?_
          obtain ⟨msg, hmsg, rfl⟩ := List.mem_map.mp hmem
          exact ⟨msg, hmsg, rfl⟩
        simp only [Loop.unread, List.append_nil, List.count_append] at hold
        rw [List.map_append, List.count_append, List.count_append, hnone]
        omega

/-- A reply that has not been taken is for a mail that waits. -/
theorem Ledger.exists_waiting {s : Loop κ δ υ σ γ ρ} {mails : List (MailCtx κ δ υ σ)}
    (h : Ledger s mails) {id : ℕ} (hid : id ∈ s.unread []) :
    ∃ m ∈ mails, m.idx = id ∧ m.msgid ≠ 0 := by
  have hpos := List.count_pos_iff.mpr hid
  have hcounts := h.counts id
  have hunread := h.unread id
  obtain ⟨m, hm, hwaiting⟩ := List.countP_pos_iff.mp (by omega : 0 < mails.countP (waiting id))
  simp only [waiting, waits, Bool.and_eq_true, decide_eq_true_eq, ne_eq] at hwaiting
  exact ⟨m, hm, hwaiting.2, hwaiting.1⟩

/-! ## Each step -/

section

variable {env : Env κ δ υ σ γ ρ} {conf : Conf κ δ σ} {s : Loop κ δ υ σ γ ρ} {i : Input σ ρ}

theorem awake_startPass (h : Awake s) (hpc : s.pc = .top) (htodo : s.todo = [])
    (harrive : i.arrivals.isEmpty ∨ (startPass s).1 = true ∧ (startPass s).2.canArrive i.arrivals) :
    Awake { (startPass s).2 with buffer := (startPass s).2.buffer ++ i.arrivals } := by
  have hhand : s.hand = none := h.none (by rw [hpc]; rfl)
  have hmails : ([] ++ s.matchq ++ s.deliverq).Perm s.mails := by
    simp [Loop.mails, htodo]
  unfold startPass at harrive ⊢
  dsimp only at harrive ⊢
  split at harrive
  · next hbuffer =>
    have hnone : i.arrivals.isEmpty := harrive.resolve_right fun hand => absurd hand.1 Bool.false_ne_true
    constructor
    · refine Ledger.arrive (s := { s with
        blocked := 0, asked := false, todo := s.matchq, matchq := [], pc := .matching none
        hand := none }) ?_ (.inl hnone)
      refine ⟨fun m hm => h.ledger.pos m (hmails.mem_iff.mp hm),
        fun m hm => h.ledger.ids m (hmails.mem_iff.mp hm), fun id => ?_, fun id => ?_⟩
      · exact (h.ledger.counts id).trans (by rw [← hmails.countP_eq]; rfl)
      · have hunread := h.ledger.unread id
        rwa [Loop.unread, hhand] at hunread
    · intro r hr
      cases hr
    · exact fun _ => rfl
    · exact fun _ => rfl
    · intro _ _
      left
      show s.buffer ++ i.arrivals = []
      rw [hbuffer, List.isEmpty_iff.mp hnone]
      rfl
    · intro timeout hpolling
      cases hpolling
  · next msg buffer hbuffer =>
    have hunread : ∀ id, (s.unread []).count id = (msg.id :: buffer.map Msg.id).count id := by
      intro id
      simp [Loop.unread, hhand, hbuffer]
    have hledger : Ledger { s with
        blocked := 0, asked := false, todo := s.matchq, matchq := [], pc := .matching (some msg)
        buffer := buffer, hand := some msg.id } ([] ++ s.matchq ++ s.deliverq) := by
      refine ⟨fun m hm => h.ledger.pos m (hmails.mem_iff.mp hm),
        fun m hm => h.ledger.ids m (hmails.mem_iff.mp hm), fun id => ?_, fun id => ?_⟩
      · exact (h.ledger.counts id).trans (by rw [← hmails.countP_eq])
      · have hold := h.ledger.unread id
        rw [hunread] at hold
        simpa [Loop.unread] using hold
    constructor
    · refine hledger.arrive ?_
      rcases harrive with hempty | ⟨-, hcan⟩
      · exact .inl hempty
      · exact .inr hcan
    · -- the mail of the reply is still to be tried
      intro r hr
      obtain rfl : msg = r := Option.some_inj.mp hr
      refine .inl ⟨rfl, ?_⟩
      refine hledger.exists_waiting ?_
      simp [Loop.unread]
    · intro hnone
      cases hnone
    · exact fun _ => rfl
    · rintro - (hasked | hnone)
      · cases hasked
      · cases hnone
    · intro timeout hpolling
      cases hpolling

/-- Nothing is ahead any more of a mail that has been tried. -/
theorem awake_endMatch {msgp : Option (Msg ρ)} (h : Awake s) (hpc : s.pc = .matching msgp)
    (htodo : s.todo = []) :
    Awake { s with pc := .delivering msgp, todo := s.deliverq, deliverq := [] } := by
  have hmails : (s.matchq ++ s.deliverq ++ []).Perm s.mails := by simp [Loop.mails, htodo]
  constructor
  · exact ⟨fun m hm => h.ledger.pos m (hmails.mem_iff.mp hm),
      fun m hm => h.ledger.ids m (hmails.mem_iff.mp hm),
      fun id => (h.ledger.counts id).trans (by rw [← hmails.countP_eq]; rfl), h.ledger.unread⟩
  · intro r hr
    have hhand := h.hand r (by rw [hpc]; exact hr)
    rw [Loop.ahead, hpc] at hhand
    simpa [htodo, Loop.ahead] using hhand
  · intro hnone
    exact h.none (by rw [hpc]; exact hnone)
  · intro _
    have hblocked := h.blocked (by rw [hpc]; rfl)
    rw [Loop.tried, hpc] at hblocked
    simpa [Loop.tried] using hblocked
  · intro _ hfree
    have hold := h.free (by rw [hpc]; rfl) hfree
    rw [Loop.settled, hpc] at hold
    simpa [Loop.settled, Loop.mails] using hold
  · intro timeout hpolling
    cases hpolling

theorem awake_endDeliver {msgp : Option (Msg ρ)} (h : Awake s) (hpc : s.pc = .delivering msgp)
    (htodo : s.todo = []) : Awake { s with pc := .fetching } := by
  have hhand : s.hand = none := by
    cases msgp with
    | none => exact h.none (by rw [hpc]; rfl)
    | some r =>
      rcases h.hand r (by rw [hpc]; rfl) with ⟨-, m, hm, -⟩ | ⟨hnone, -⟩
      · rw [Loop.ahead, hpc] at hm
        simp [htodo] at hm
      · exact hnone
  constructor
  · exact ⟨h.ledger.pos, h.ledger.ids, h.ledger.counts, h.ledger.unread⟩
  · intro r hr
    cases hr
  · exact fun _ => hhand
  · intro _
    have hblocked := h.blocked (by rw [hpc]; rfl)
    rw [Loop.tried, hpc] at hblocked
    simpa [Loop.tried, Loop.mails, htodo] using hblocked
  · intro _ hfree
    have hold := h.free (by rw [hpc]; rfl) hfree
    rw [Loop.settled, hpc] at hold
    exact hold
  · intro timeout hpolling
    cases hpolling

/-- The message of the pass, about a mail that is ahead. -/
theorem hand_of_takes {msgp : Option (Msg ρ)} {this : MailCtx κ δ υ σ} (h : Awake s)
    (hpc : s.pc.msgp = msgp) (hthis : this ∈ s.ahead) (hmem : this ∈ s.mails)
    (htakes : takes this msgp = true) : s.hand = some this.idx := by
  simp only [takes, Bool.and_eq_true, decide_eq_true_eq, Option.isSome_iff_ne_none, ne_eq] at htakes
  obtain ⟨hmsgid, hown⟩ := htakes
  cases msgp with
  | none => exact absurd rfl hown
  | some r =>
    have hid : r.id = this.msgid := by
      by_contra hne
      exact hown (by simp [ownMsg, hne])
    have hidx : r.id = this.idx := hid.trans (h.ledger.ids this hmem hmsgid)
    rcases h.hand r (by rw [hpc]; rfl) with ⟨hhand, -⟩ | ⟨-, hnone⟩
    · rw [hhand, hidx]
    · exact absurd hidx.symm (hnone this hthis hmsgid)

/-- What is left of the message behind a call. -/
theorem hand_called {msgp : Option (Msg ρ)} {this : MailCtx κ δ υ σ} {ahead : List (MailCtx κ δ υ σ)}
    (ran : Ran κ δ υ σ γ) (h : Awake s) (hpc : s.pc.msgp = msgp) (hahead : s.ahead = this :: ahead)
    (hmem : this ∈ s.mails) (hnodup : this.idx ∉ ahead.map MailCtx.idx) :
    ∀ r ∈ msgp, (s.called this msgp ran).hand = some r.id ∧
        (∃ m ∈ ahead, m.idx = r.id ∧ m.msgid ≠ 0) ∨
      (s.called this msgp ran).hand = none ∧ ∀ m ∈ ahead, m.msgid ≠ 0 → m.idx ≠ r.id := by
  intro r hr
  have hold := h.hand r (by rw [hpc]; exact hr)
  rw [hahead] at hold
  cases htakes : takes this msgp with
  | true =>
    have hhand := hand_of_takes h hpc (by rw [hahead]; exact .head _) hmem htakes
    right
    refine ⟨by simp [Loop.called, htakes], fun m hm _ hidx => ?_⟩
    rcases hold with ⟨hsome, -⟩ | ⟨hnone, -⟩
    · have hid : this.idx = r.id := Option.some_inj.mp (hhand.symm.trans hsome)
      exact hnodup (List.mem_map.mpr ⟨m, hm, hidx.trans hid.symm⟩)
    · cases hhand.symm.trans hnone
  | false =>
    have hsame : (s.called this msgp ran).hand = s.hand := by simp [Loop.called, htakes]
    rw [hsame]
    rcases hold with ⟨hsome, m, hm, hidx, hwaits⟩ | ⟨hnone, hall⟩
    · left
      refine ⟨hsome, m, ?_, hidx, hwaits⟩
      rcases List.mem_cons.mp hm with rfl | hm
      · -- the mail of the message would take it
        have hmsgid := h.ledger.ids m hmem hwaits
        have hr : msgp = some r := hr
        simp [takes, ownMsg, hr, hmsgid, hidx] at htakes
        exact absurd (hidx ▸ htakes) (h.ledger.pos m hmem)
      · exact hm
    · exact .inr ⟨hnone, fun m hm => hall m (.tail _ hm)⟩

theorem none_called {msgp : Option (Msg ρ)} {this : MailCtx κ δ υ σ} {ran : Ran κ δ υ σ γ}
    (h : Awake s) (hpc : s.pc.msgp = msgp) (hnone : msgp = none) :
    (s.called this msgp ran).hand = none := by
  have hhand : s.hand = none := h.none (hpc.trans hnone)
  simp [Loop.called, hhand]

/-- The state behind a call, and what has been read meanwhile. -/
structure After (s : Loop κ δ υ σ γ ρ) (this : MailCtx κ δ υ σ) (msgp : Option (Msg ρ))
    (ran : Ran κ δ υ σ γ) (arrivals : List (Msg ρ)) (u : Loop κ δ υ σ γ ρ) : Prop where
  pc : u.pc = s.pc
  requests : u.requests = (s.called this msgp ran).requests
  taken : u.taken = (s.called this msgp ran).taken
  hand : u.hand = (s.called this msgp ran).hand
  asked : u.asked = (s.asked || asks this ran.mctx)
  buffer : u.buffer = s.buffer ++ arrivals
  /-- Something is only read while a request is sent. -/
  arrive : arrivals.isEmpty ∨
    asks this ran.mctx = true ∧ (s.called this msgp ran).canArrive arrivals

section Call

variable {msgp : Option (Msg ρ)} {this : MailCtx κ δ υ σ} {ran : Ran κ δ υ σ γ}
  {arrivals : List (Msg ρ)} {u : Loop κ δ υ σ γ ρ} {mails : List (MailCtx κ δ υ σ)}

theorem Ledger.after (h : Ledger (s.called this msgp ran) mails)
    (hu : After s this msgp ran arrivals u) : Ledger u mails := by
  have harrive := h.arrive (hu.arrive.imp_right And.right)
  refine ⟨h.pos, h.ids, fun id => ?_, fun id => ?_⟩
  · rw [hu.requests, hu.taken]
    exact h.counts id
  · have hunread := harrive.unread id
    rw [hu.requests, hu.taken, Loop.unread, hu.hand, hu.buffer]
    exact hunread

/-- The mail of a call can go on, or it waits as before, or it has sent a request when there was no
other reply or another mail could go on. -/
theorem free_after {ch : Char} {others : List (MailCtx κ δ υ σ)} (hu : After s this msgp ran arrivals u)
    (hout : Outcome ch this msgp ran) (herror : ran.ret ≠ .mailError) (hfatal : ran.ret ≠ .fatal)
    (hold : s.asked = true ∨ s.hand = none → this.msgid ≠ 0 ∨ ran.ret = .mailDone →
      s.buffer = [] ∨ ∃ m ∈ others, m.msgid = 0)
    (hprompt : asks this ran.mctx = true →
      s.buffer = [] ∧ arrivals.isEmpty ∨ ∃ m ∈ others, m.msgid = 0)
    (hafter : u.asked = true ∨ u.hand = none) :
    u.buffer = [] ∨ (∃ m ∈ others, m.msgid = 0) ∨ ran.ret ≠ .mailDone ∧ ran.mctx.msgid = 0 := by
  have hempty : asks this ran.mctx = false → u.buffer = s.buffer := by
    intro hasks
    have harrive := hu.arrive.resolve_right fun hand => by simp [hasks] at hand
    rw [hu.buffer, List.isEmpty_iff.mp harrive, List.append_nil]
  cases hout with
  | fails hret => exact absurd hret (not_or.mpr ⟨herror, hfatal⟩)
  | waits hmsgid hown hret hmctx =>
    have hasks : asks this ran.mctx = false := by simp [asks, hmsgid]
    have htakes := takes_eq_false this msgp (.inr hown)
    rw [hu.asked, hu.hand, hasks, Bool.or_false] at hafter
    rw [hempty hasks]
    have hhand : (s.called this msgp ran).hand = s.hand := by simp [Loop.called, htakes]
    rw [hhand] at hafter
    exact (hold hafter (.inl hmsgid)).imp_right .inl
  | asks hmsgid hret hsent =>
    by_cases hne : this.idx = 0
    · have hfree : ran.mctx.msgid = 0 := hsent.trans hne
      exact .inr (.inr ⟨by simp [hret], hfree⟩)
    · have hasks : asks this ran.mctx = true := by simp [asks, hmsgid, hsent, hne]
      rcases hprompt hasks with ⟨hbuffer, harrive⟩ | hfree
      · left
        rw [hu.buffer, hbuffer, List.isEmpty_iff.mp harrive]
        rfl
      · exact .inr (.inl hfree)
  | leaves hmsgid hret hfree =>
    have hasks : asks this ran.mctx = false := by simp [asks, hfree]
    have htakes := takes_eq_false this msgp (.inl hmsgid)
    rw [hu.asked, hu.hand, hasks, Bool.or_false] at hafter
    rw [hempty hasks]
    have hhand : (s.called this msgp ran).hand = s.hand := by simp [Loop.called, htakes]
    rw [hhand] at hafter
    exact (hold hafter (.inr hret)).imp_right .inl
  | goes _ _ hdone hfree => exact .inr (.inr ⟨hdone, hfree⟩)

/-- A mail that stays waits just when the call blocks. -/
theorem waits_of_stays {ch : Char} (hpos : this.idx ≠ 0) (hout : Outcome ch this msgp ran)
    (herror : ran.ret ≠ .mailError) (hfatal : ran.ret ≠ .fatal) (hstays : ran.ret ≠ .mailDone) :
    waits ran.mctx = decide (ran.ret = .mailBlocked) := by
  cases hout with
  | fails hret => exact absurd hret (not_or.mpr ⟨herror, hfatal⟩)
  | leaves _ hret => exact absurd hret hstays
  | waits hmsgid _ hret hmctx => simp [waits, hmctx, hmsgid, hret]
  | asks _ hret hsent => simp [waits, hsent, hret, hpos]
  | goes _ hblocked _ hfree => simp [waits, hfree, hblocked]

/-- The mail of a call joins one of the two queues at its end. -/
theorem perm_joined {m : MailCtx κ δ υ σ} {queue others queue' others' : List (MailCtx κ δ υ σ)}
    (between : List (MailCtx κ δ υ σ))
    (h : queue' = queue ++ [m] ∧ others' = others ∨ queue' = queue ∧ others' = others ++ [m]) :
    (queue' ++ between ++ others').Perm (m :: (queue ++ between ++ others)) := by
  rcases h with ⟨hqueue, hothers⟩ | ⟨hqueue, hothers⟩
  · rw [hqueue, hothers]
    simp only [List.append_assoc, List.singleton_append]
    exact List.perm_middle
  · rw [hqueue, hothers, ← List.append_assoc]
    exact List.perm_append_singleton _ _

/-- A pass without a message has none behind a call either. -/
theorem none_after (h : Awake s) (hpc : s.pc.msgp = msgp) (hupc : u.pc.msgp = msgp)
    (hu : After s this msgp ran arrivals u) : u.pc.msgp = none → u.hand = none := by
  intro hnone
  rw [hupc] at hnone
  rw [hu.hand]
  exact none_called h hpc hnone

end Call

/-! ### A mail on the match queue -/

section Match

variable {msgp : Option (Msg ρ)} {this : MailCtx κ δ υ σ} {todo : List (MailCtx κ δ υ σ)}
  {ran : Ran κ δ υ σ γ} {arrivals : List (Msg ρ)} {u : Loop κ δ υ σ γ ρ}

theorem ahead_matching (h : s.pc = .matching msgp) : s.ahead = s.todo ++ s.deliverq := by
  rw [Loop.ahead, h]

theorem tried_matching (h : s.pc = .matching msgp) : s.tried = s.matchq := by
  rw [Loop.tried, h]

theorem settled_matching (h : s.pc = .matching msgp) : s.settled = s.matchq ++ s.deliverq := by
  rw [Loop.settled, h]

theorem perm_matching (htodo : s.todo = this :: todo) :
    s.mails.Perm (this :: (s.matchq ++ todo ++ s.deliverq)) := by
  simp only [Loop.mails, htodo, List.append_assoc, List.cons_append]
  exact List.perm_middle

/-- A mail that is tried is not ahead of itself. -/
theorem notMem_ahead (hnodup : (s.mails.map MailCtx.idx).Nodup) (htodo : s.todo = this :: todo) :
    this.idx ∉ (todo ++ s.deliverq).map MailCtx.idx := by
  have hnd := ((perm_matching htodo).map MailCtx.idx).nodup_iff.mp hnodup
  rw [List.map_cons, List.nodup_cons] at hnd
  intro hin
  apply hnd.1
  rw [List.append_assoc, List.map_append]
  exact List.mem_append_right _ hin

/-- A call of `mail_match` behind which the mail is on one of the queues. -/
theorem awake_matched {ch : Char} (h : Awake s) (hnodup : (s.mails.map MailCtx.idx).Nodup)
    (hpc : s.pc = .matching msgp) (htodo : s.todo = this :: todo)
    (hout : Outcome ch this msgp ran) (hidx : ran.mctx.idx = this.idx)
    (herror : ran.ret ≠ .mailError) (hfatal : ran.ret ≠ .fatal) (hstays : ran.ret ≠ .mailDone)
    (hu : After s this msgp ran arrivals u) (hutodo : u.todo = todo)
    (hqueues : u.matchq = s.matchq ++ [ran.mctx] ∧ u.deliverq = s.deliverq ∨
      u.matchq = s.matchq ∧ u.deliverq = s.deliverq ++ [ran.mctx] ∧ ran.ret ≠ .mailBlocked)
    (hblocked : u.blocked = s.blocked + if ran.ret = .mailBlocked then 1 else 0)
    (hprompt : asks this ran.mctx = true →
      s.buffer = [] ∧ arrivals.isEmpty ∨ ∃ m ∈ s.matchq ++ s.deliverq, m.msgid = 0) : Awake u := by
  have hperm := perm_matching htodo
  have hmem : this ∈ s.mails := hperm.mem_iff.mpr (.head _)
  have hupc : u.pc = .matching msgp := hu.pc.trans hpc
  have hmsgp : s.pc.msgp = msgp := by rw [hpc]; rfl
  have hahead : s.ahead = this :: (todo ++ s.deliverq) := by rw [ahead_matching hpc, htodo]; rfl
  have hledger := (h.ledger.perm hperm.symm).stays hout hidx herror hfatal hstays fun htakes =>
    hand_of_takes h hmsgp (by rw [hahead]; exact .head _) hmem htakes
  have hwaits := waits_of_stays (h.ledger.pos this hmem) hout herror hfatal hstays
  have hjoined : u.matchq = s.matchq ++ [ran.mctx] ∧ u.deliverq = s.deliverq ∨
      u.matchq = s.matchq ∧ u.deliverq = s.deliverq ++ [ran.mctx] :=
    hqueues.imp_right fun hd => ⟨hd.1, hd.2.1⟩
  constructor
  · refine (hledger.after hu).perm ?_
    rw [Loop.mails, hutodo]
    exact perm_joined todo hjoined
  · -- a mail that has gone to the delivery queue does not wait
    intro r hr
    rw [hupc] at hr
    have hold := hand_called ran h hmsgp hahead hmem (notMem_ahead hnodup htodo) r hr
    rw [hu.hand, ahead_matching hupc, hutodo]
    rcases hqueues with ⟨-, hd⟩ | ⟨-, hd, hnot⟩
    · rw [hd]
      exact hold
    · have hfree : ran.mctx.msgid = 0 := by simpa [waits, hnot] using hwaits
      rw [hd, ← List.append_assoc]
      rcases hold with ⟨hsome, m, hm, hid⟩ | ⟨hnone, hall⟩
      · exact .inl ⟨hsome, m, List.mem_append_left _ hm, hid⟩
      · refine .inr ⟨hnone, fun m hm hwaits => ?_⟩
        rcases List.mem_append.mp hm with hm | hm
        · exact hall m hm hwaits
        · rw [List.mem_singleton.mp hm] at hwaits
          exact absurd hfree hwaits
  · exact none_after h hmsgp (by rw [hupc]; rfl) hu
  · intro _
    have hold := h.blocked (by rw [hpc]; rfl)
    rw [tried_matching hpc] at hold
    rw [tried_matching hupc, hblocked, hold]
    rcases hqueues with ⟨hm, -⟩ | ⟨hm, -, hnot⟩
    · rw [hm, List.countP_append, List.countP_singleton, hwaits]
      simp only [decide_eq_true_eq]
    · rw [hm, if_neg hnot, Nat.add_zero]
  · intro _ hafter
    have hold := h.free (by rw [hpc]; rfl)
    rw [settled_matching hpc] at hold
    rw [settled_matching hupc]
    have hsub := perm_joined [] hjoined
    rw [List.append_nil, List.append_nil] at hsub
    rcases free_after hu hout herror hfatal (fun hcond _ => hold hcond) hprompt hafter with
      hbuffer | ⟨m, hm, hfree⟩ | ⟨-, hfree⟩
    · exact .inl hbuffer
    · exact .inr ⟨m, hsub.mem_iff.mpr (.tail _ hm), hfree⟩
    · exact .inr ⟨ran.mctx, hsub.mem_iff.mpr (.head _), hfree⟩
  · intro timeout hpolling
    rw [hupc] at hpolling
    cases hpolling

/-- A call of `mail_match` behind which the mail leaves the queue. -/
theorem awake_dequeued (h : Awake s) (hnodup : (s.mails.map MailCtx.idx).Nodup)
    (hpc : s.pc = .matching msgp) (htodo : s.todo = this :: todo) (hmsgid : this.msgid = 0)
    (hret : ran.ret = .mailDone) (hfree : ran.mctx.msgid = 0)
    (hu : After s this msgp ran arrivals u) (hutodo : u.todo = todo) (humatchq : u.matchq = s.matchq)
    (hudeliverq : u.deliverq = s.deliverq) (hblocked : u.blocked = s.blocked) : Awake u := by
  have hperm := perm_matching htodo
  have hmem : this ∈ s.mails := hperm.mem_iff.mpr (.head _)
  have hupc : u.pc = .matching msgp := hu.pc.trans hpc
  have hmsgp : s.pc.msgp = msgp := by rw [hpc]; rfl
  have hahead : s.ahead = this :: (todo ++ s.deliverq) := by rw [ahead_matching hpc, htodo]; rfl
  have hledger := (h.ledger.perm hperm.symm).leaves msgp hmsgid hfree
  constructor
  · rw [Loop.mails, hutodo, humatchq, hudeliverq]
    exact hledger.after hu
  · intro r hr
    rw [hupc] at hr
    rw [hu.hand, ahead_matching hupc, hutodo, hudeliverq]
    exact hand_called ran h hmsgp hahead hmem (notMem_ahead hnodup htodo) r hr
  · exact none_after h hmsgp (by rw [hupc]; rfl) hu
  · intro _
    have hold := h.blocked (by rw [hpc]; rfl)
    rw [tried_matching hpc] at hold
    rw [tried_matching hupc, hblocked, hold, humatchq]
  · intro _ hafter
    have hold := h.free (by rw [hpc]; rfl)
    rw [settled_matching hpc] at hold
    rw [settled_matching hupc, humatchq, hudeliverq]
    have hasks : asks this ran.mctx ≠ true := by simp [asks, hfree]
    have hout : Outcome ' ' this msgp ran := .leaves hmsgid hret hfree
    rcases free_after hu hout (by simp [hret]) (by simp [hret])
      (fun hcond _ => hold hcond) (fun hsent => absurd hsent hasks) hafter with
      hbuffer | hsome | ⟨hnot, -⟩
    · exact .inl hbuffer
    · exact .inr hsome
    · exact absurd hret hnot
  · intro timeout hpolling
    rw [hupc] at hpolling
    cases hpolling

end Match

/-! ### A mail on the delivery queue -/

section Deliver

variable {msgp : Option (Msg ρ)} {this : MailCtx κ δ υ σ} {todo : List (MailCtx κ δ υ σ)}
  {ran : Ran κ δ υ σ γ} {arrivals : List (Msg ρ)} {u : Loop κ δ υ σ γ ρ}

theorem ahead_delivering (h : s.pc = .delivering msgp) : s.ahead = s.todo := by
  rw [Loop.ahead, h]

theorem tried_delivering (h : s.pc = .delivering msgp) : s.tried = s.matchq ++ s.deliverq := by
  rw [Loop.tried, h]

theorem settled_delivering (h : s.pc = .delivering msgp) : s.settled = s.mails := by
  rw [Loop.settled, h]

/-- A call of `mail_deliver`. -/
theorem awake_delivered {ch : Char} (h : Awake s) (hnodup : (s.mails.map MailCtx.idx).Nodup)
    (hpc : s.pc = .delivering msgp) (htodo : s.todo = this :: todo)
    (hout : Outcome ch this msgp ran) (hidx : ran.mctx.idx = this.idx)
    (herror : ran.ret ≠ .mailError) (hfatal : ran.ret ≠ .fatal) (hstays : ran.ret ≠ .mailDone)
    (hu : After s this msgp ran arrivals u) (hutodo : u.todo = todo)
    (hqueues : u.matchq = s.matchq ++ [ran.mctx] ∧ u.deliverq = s.deliverq ∧
        ran.ret ≠ .mailBlocked ∨
      u.matchq = s.matchq ∧ u.deliverq = s.deliverq ++ [ran.mctx])
    (hblocked : u.blocked = s.blocked + if ran.ret = .mailBlocked then 1 else 0)
    (hprompt : asks this ran.mctx = true →
      s.buffer = [] ∧ arrivals.isEmpty ∨ ∃ m ∈ s.matchq ++ todo ++ s.deliverq, m.msgid = 0) :
    Awake u := by
  have hperm := perm_matching htodo
  have hmem : this ∈ s.mails := hperm.mem_iff.mpr (.head _)
  have hupc : u.pc = .delivering msgp := hu.pc.trans hpc
  have hmsgp : s.pc.msgp = msgp := by rw [hpc]; rfl
  have hahead : s.ahead = this :: todo := by rw [ahead_delivering hpc, htodo]
  have hnew : this.idx ∉ todo.map MailCtx.idx := fun hin =>
    notMem_ahead hnodup htodo (by rw [List.map_append]; exact List.mem_append_left _ hin)
  have hledger := (h.ledger.perm hperm.symm).stays hout hidx herror hfatal hstays fun htakes =>
    hand_of_takes h hmsgp (by rw [hahead]; exact .head _) hmem htakes
  have hwaits := waits_of_stays (h.ledger.pos this hmem) hout herror hfatal hstays
  have humails : u.mails.Perm (ran.mctx :: (s.matchq ++ todo ++ s.deliverq)) := by
    rw [Loop.mails, hutodo]
    exact perm_joined todo (hqueues.imp_left fun hm => ⟨hm.1, hm.2.1⟩)
  constructor
  · exact (hledger.after hu).perm humails
  · intro r hr
    rw [hupc] at hr
    rw [hu.hand, ahead_delivering hupc, hutodo]
    exact hand_called ran h hmsgp hahead hmem hnew r hr
  · exact none_after h hmsgp (by rw [hupc]; rfl) hu
  · intro _
    have hold := h.blocked (by rw [hpc]; rfl)
    rw [tried_delivering hpc] at hold
    rw [tried_delivering hupc, hblocked, hold]
    rcases hqueues with ⟨hm, hd, hnot⟩ | ⟨hm, hd⟩
    · have hfalse : waits ran.mctx = false := by simpa [hnot] using hwaits
      rw [hm, hd, if_neg hnot, List.countP_append, List.countP_append, List.countP_append,
        List.countP_singleton, hfalse]
      simp
    · rw [hm, hd, ← List.append_assoc, @List.countP_append _ _ _ [ran.mctx], List.countP_singleton,
        hwaits]
      simp only [decide_eq_true_eq]
  · intro _ hafter
    have hold := h.free (by rw [hpc]; rfl)
    rw [settled_delivering hpc] at hold
    rw [settled_delivering hupc]
    -- a mail that waits is not the one that can go on
    have hothers : s.asked = true ∨ s.hand = none → this.msgid ≠ 0 ∨ ran.ret = .mailDone →
        s.buffer = [] ∨ ∃ m ∈ s.matchq ++ todo ++ s.deliverq, m.msgid = 0 := by
      intro hcond hthis
      rcases hold hcond with hbuffer | ⟨m, hm, hfree⟩
      · exact .inl hbuffer
      · rcases List.mem_cons.mp (hperm.mem_iff.mp hm) with rfl | hm
        · exact absurd hfree (hthis.resolve_right hstays)
        · exact .inr ⟨m, hm, hfree⟩
    rcases free_after hu hout herror hfatal hothers hprompt hafter with
      hbuffer | ⟨m, hm, hfree⟩ | ⟨-, hfree⟩
    · exact .inl hbuffer
    · exact .inr ⟨m, humails.mem_iff.mpr (.tail _ hm), hfree⟩
    · exact .inr ⟨ran.mctx, humails.mem_iff.mpr (.head _), hfree⟩
  · intro timeout hpolling
    rw [hupc] at hpolling
    cases hpolling

end Deliver

/-! ### The steps of the loop -/

/-- A step, and what has been read meanwhile. -/
def received (i : Input σ ρ) (u : Loop κ δ υ σ γ ρ) : Loop κ δ υ σ γ ρ :=
  { u with buffer := u.buffer ++ i.arrivals }

theorem awake_fetchMatch {msgp : Option (Msg ρ)} (h : Awake s) (hinv : Inv conf s)
    (hpc : s.pc = .matching msgp) (hprompt : Prompt env conf s i)
    (harrive : i.arrivals.isEmpty ∨ (fetchMatch env conf i.fails msgp s).1 = true ∧
      (fetchMatch env conf i.fails msgp s).2.canArrive i.arrivals)
    (halive : (fetchMatch env conf i.fails msgp s).2.pc.isAlive = true) :
    Awake (received i (fetchMatch env conf i.fails msgp s).2) := by
  unfold fetchMatch at harrive halive ⊢
  cases htodo : s.todo with
  | nil =>
    simp only [htodo] at harrive halive ⊢
    have hnone : i.arrivals = [] :=
      List.isEmpty_iff.mp (harrive.resolve_right fun hand => absurd hand.1 nofun)
    have hend := awake_endMatch h hpc htodo
    simpa [received, hnone] using hend
  | cons this todo =>
    simp only [htodo] at harrive halive ⊢
    have hout := outcome_mailMatch env conf.rules this s.world msgp
    have hidx : (mailMatch env conf.rules this s.world msgp).mctx.idx = this.idx :=
      mailMatch_idx this s.world msgp
    have hguard : asks this (mailMatch env conf.rules this s.world msgp).mctx = true →
        s.buffer = [] ∧ i.arrivals.isEmpty ∨ ∃ m ∈ s.matchq ++ s.deliverq, m.msgid = 0 := by
      unfold Prompt at hprompt
      simpa only [hpc, htodo] using hprompt
    generalize mailMatch env conf.rules this s.world msgp = ran at *
    have hnodup := hinv.nodup_mails
    cases hret : ran.ret with
    | mailError => rw [hret] at halive; cases halive
    | fatal => rw [hret] at halive; cases halive
    | mailDone =>
      simp only [hret] at harrive halive ⊢
      obtain ⟨hmsgid, hfree⟩ : this.msgid = 0 ∧ ran.mctx.msgid = 0 := by
        cases hout with
        | fails hfail => simp [hret] at hfail
        | waits _ _ hblocked _ => simp [hret] at hblocked
        | asks _ hblocked _ => simp [hret] at hblocked
        | leaves hmsgid _ hfree => exact ⟨hmsgid, hfree⟩
        | goes _ _ hdone _ => exact absurd hret hdone
      have hasks : asks this ran.mctx = false := by simp [asks, hfree]
      have hnone : i.arrivals.isEmpty :=
        harrive.resolve_right fun hand => by simp [hasks] at hand
      unfold fetchDequeue at halive ⊢
      dsimp only at halive ⊢
      by_cases hfail : (conf.commit && i.fails) = true
      · rw [if_pos hfail] at halive
        cases halive
      · rw [if_neg hfail]
        exact awake_dequeued h hnodup hpc htodo hmsgid hret hfree
          ⟨rfl, rfl, rfl, rfl, rfl, rfl, .inl hnone⟩ rfl rfl rfl rfl
    | mailDeliver =>
      simp only [hret] at harrive ⊢
      exact awake_matched h hnodup hpc htodo hout hidx (by simp [hret]) (by simp [hret])
        (by simp [hret]) ⟨rfl, rfl, rfl, rfl, rfl, rfl, harrive⟩ rfl
        (.inr ⟨rfl, rfl, by simp [hret]⟩) (by simp [hret, received, Loop.called]) hguard
    | mailBlocked =>
      simp only [hret] at harrive ⊢
      exact awake_matched h hnodup hpc htodo hout hidx (by simp [hret]) (by simp [hret])
        (by simp [hret]) ⟨rfl, rfl, rfl, rfl, rfl, rfl, harrive⟩ rfl (.inl ⟨rfl, rfl⟩)
        (by simp [hret, received, Loop.called]) hguard
    | mailContinue =>
      simp only [hret] at harrive ⊢
      exact awake_matched h hnodup hpc htodo hout hidx (by simp [hret]) (by simp [hret])
        (by simp [hret]) ⟨rfl, rfl, rfl, rfl, rfl, rfl, harrive⟩ rfl (.inl ⟨rfl, rfl⟩)
        (by simp [hret, received, Loop.called]) hguard
    | mailMatch =>
      simp only [hret] at harrive ⊢
      exact awake_matched h hnodup hpc htodo hout hidx (by simp [hret]) (by simp [hret])
        (by simp [hret]) ⟨rfl, rfl, rfl, rfl, rfl, rfl, harrive⟩ rfl (.inl ⟨rfl, rfl⟩)
        (by simp [hret, received, Loop.called]) hguard

variable (env) in
/-- `mail_deliver` does not finish a mail. -/
theorem mailDeliver_ret (this : MailCtx κ δ υ σ) (world : γ) (msgp : Option (Msg ρ)) :
    (mailDeliver env this world msgp).ret ≠ .mailDone := by
  unfold mailDeliver startFirst resumeDeliver
  dsimp only
  split_ifs
  · split
    · exact nofun
    · split
      · exact nofun
      · split <;> exact nofun
  · split
    · exact nofun
    · split <;> exact nofun

theorem awake_fetchDeliver {msgp : Option (Msg ρ)} (h : Awake s) (hinv : Inv conf s)
    (hpc : s.pc = .delivering msgp) (hprompt : Prompt env conf s i)
    (harrive : i.arrivals.isEmpty ∨ (fetchDeliver env msgp s).1 = true ∧
      (fetchDeliver env msgp s).2.canArrive i.arrivals)
    (halive : (fetchDeliver env msgp s).2.pc.isAlive = true) :
    Awake (received i (fetchDeliver env msgp s).2) := by
  unfold fetchDeliver at harrive halive ⊢
  cases htodo : s.todo with
  | nil =>
    simp only [htodo] at harrive halive ⊢
    have hnone : i.arrivals = [] :=
      List.isEmpty_iff.mp (harrive.resolve_right fun hand => absurd hand.1 nofun)
    have hend := awake_endDeliver h hpc htodo
    simpa [received, hnone, htodo] using hend
  | cons this todo =>
    simp only [htodo] at harrive halive ⊢
    have hout := outcome_mailDeliver env this s.world msgp
    have hidx : (mailDeliver env this s.world msgp).mctx.idx = this.idx :=
      mailDeliver_idx this s.world msgp
    have hdone := mailDeliver_ret env this s.world msgp
    have hguard : asks this (mailDeliver env this s.world msgp).mctx = true →
        s.buffer = [] ∧ i.arrivals.isEmpty ∨
          ∃ m ∈ s.matchq ++ todo ++ s.deliverq, m.msgid = 0 := by
      unfold Prompt at hprompt
      simpa only [hpc, htodo] using hprompt
    generalize mailDeliver env this s.world msgp = ran at *
    have hnodup := hinv.nodup_mails
    cases hret : ran.ret with
    | mailError => rw [hret] at halive; cases halive
    | fatal => rw [hret] at halive; cases halive
    | mailDone => exact absurd hret hdone
    | mailDeliver =>
      simp only [hret] at harrive ⊢
      exact awake_delivered h hnodup hpc htodo hout hidx (by simp [hret]) (by simp [hret])
        (by simp [hret]) ⟨rfl, rfl, rfl, rfl, rfl, rfl, harrive⟩ rfl (.inr ⟨rfl, rfl⟩)
        (by simp [hret, received, Loop.called]) hguard
    | mailBlocked =>
      simp only [hret] at harrive ⊢
      exact awake_delivered h hnodup hpc htodo hout hidx (by simp [hret]) (by simp [hret])
        (by simp [hret]) ⟨rfl, rfl, rfl, rfl, rfl, rfl, harrive⟩ rfl (.inr ⟨rfl, rfl⟩)
        (by simp [hret, received, Loop.called]) hguard
    | mailContinue =>
      simp only [hret] at harrive ⊢
      exact awake_delivered h hnodup hpc htodo hout hidx (by simp [hret]) (by simp [hret])
        (by simp [hret]) ⟨rfl, rfl, rfl, rfl, rfl, rfl, harrive⟩ rfl (.inr ⟨rfl, rfl⟩)
        (by simp [hret, received, Loop.called]) hguard
    | mailMatch =>
      simp only [hret] at harrive ⊢
      exact awake_delivered h hnodup hpc htodo hout hidx (by simp [hret]) (by simp [hret])
        (by simp [hret]) ⟨rfl, rfl, rfl, rfl, rfl, rfl, harrive⟩ rfl
        (.inl ⟨rfl, rfl, by simp [hret]⟩) (by simp [hret, received, Loop.called]) hguard

/-- The loop goes to `fetch_poll`. -/
theorem awake_preparePoll (h : Awake s) (hpc : s.pc = .fetching) {u : Loop κ δ υ σ γ ρ}
    (hledger : Ledger u u.mails) (hhand : u.hand = s.hand) (hblocked : u.blocked = s.blocked)
    (hmails : u.mails = s.mails) (hasked : u.asked = s.asked) (hbuffer : u.buffer = s.buffer)
    (sockets : ℕ) (halive : (preparePoll conf sockets u).pc.isAlive = true) :
    Awake (preparePoll conf sockets u) := by
  unfold preparePoll at halive ⊢
  split_ifs at halive ⊢ with hend
  · cases halive
  · constructor
    · exact ⟨hledger.pos, hledger.ids, hledger.counts, hledger.unread⟩
    · exact nofun
    · intro _
      exact hhand.trans (h.none (by rw [hpc]; rfl))
    · intro _
      have hold := h.blocked (by rw [hpc]; rfl)
      rw [Loop.tried, hpc] at hold
      exact hblocked.trans (hold.trans (by rw [← hmails]; rfl))
    · intro _ hfree
      have hold := h.free (by rw [hpc]; rfl) (by
        rwa [← hasked, ← hhand])
      rw [Loop.settled, hpc, ← hbuffer, ← hmails] at hold
      exact hold
    · intro timeout hpolling htimeout hqueued
      obtain rfl : pollTimeout conf sockets u = timeout := At.polling.inj hpolling
      by_contra hne
      refine htimeout ?_
      unfold pollTimeout
      split_ifs with hsockets hblocked'
      · rfl
      · rfl
      · exact absurd ⟨hqueued, hne⟩ hblocked'

/-- At the top of the loop there is nothing in hand. -/
theorem awake_top {u : Loop κ δ υ σ γ ρ} (hledger : Ledger u u.mails) (hhand : u.hand = none)
    (hpc : u.pc = .top) : Awake u := by
  constructor
  · exact hledger
  · rw [hpc]
    exact nofun
  · exact fun _ => hhand
  · rw [hpc]
    exact nofun
  · rw [hpc]
    exact nofun
  · rw [hpc]
    exact nofun

theorem awake_fetchEnqueue (h : Awake s) (hhand : s.hand = none) (htodo : s.todo = [])
    (fails : Bool) (m : MailData σ) (halive : (fetchEnqueue conf fails m s).pc.isAlive = true) :
    Awake (fetchEnqueue conf fails m s) := by
  unfold fetchEnqueue at halive ⊢
  dsimp only at halive ⊢
  split_ifs at halive ⊢
  · cases halive
  · exact awake_top ⟨h.ledger.pos, h.ledger.ids, h.ledger.counts, h.ledger.unread⟩ hhand rfl
  · cases halive
  · exact awake_top ⟨h.ledger.pos, h.ledger.ids, h.ledger.counts, h.ledger.unread⟩ hhand rfl
  · cases halive
  · -- a new mail does not wait
    have hperm : (s.matchq ++ [newCtx conf.rules (s.idx + 1)
        (conf.fillIn { conf.trimFrom m with decision := .drop })] ++ s.todo ++ s.deliverq).Perm
        (newCtx conf.rules (s.idx + 1)
          (conf.fillIn { conf.trimFrom m with decision := .drop }) :: s.mails) := by
      simp only [Loop.mails, htodo, List.append_nil, List.append_assoc, List.singleton_append]
      exact List.perm_middle
    refine awake_top (Ledger.perm ⟨?_, ?_, fun id => ?_, h.ledger.unread⟩ hperm) hhand rfl
    · rintro x (_ | ⟨_, hx⟩)
      · exact Nat.succ_ne_zero _
      · exact h.ledger.pos x hx
    · rintro x (_ | ⟨_, hx⟩)
      · exact fun hne => absurd rfl hne
      · exact h.ledger.ids x hx
    · rw [List.countP_cons_of_neg (by simp [waiting, waits, newCtx])]
      exact h.ledger.counts id

/-- What the state function has returned, in a state that differs from the one before in what the
invariant does not look at. -/
theorem awake_handleFetch (h : Awake s) (hpc : s.pc = .fetching) {u : Loop κ δ υ σ γ ρ}
    (hu : Awake u) (hupc : u.pc = .fetching) (htodo : u.todo = []) (hhand : u.hand = s.hand)
    (hblocked : u.blocked = s.blocked) (hmails : u.mails = s.mails) (hasked : u.asked = s.asked)
    (hbuffer : u.buffer = s.buffer) (halive : (handleFetch conf i u).pc.isAlive = true) :
    Awake (handleFetch conf i u) := by
  have hledger := hu.ledger
  have hnone : u.hand = none := hu.none (by rw [hupc]; rfl)
  unfold handleFetch at halive ⊢
  split at halive
  · cases halive
  · exact awake_preparePoll (u := { u with complete := true }) h hpc
      ⟨hledger.pos, hledger.ids, hledger.counts, hledger.unread⟩ hhand hblocked hmails hasked
      hbuffer _ halive
  · exact awake_top ⟨hledger.pos, hledger.ids, hledger.counts, hledger.unread⟩ hnone rfl
  · exact awake_preparePoll h hpc hledger hhand hblocked hmails hasked hbuffer _ halive
  · exact awake_fetchEnqueue hu hnone htodo _ _ halive

theorem awake_callFetch (h : Awake s) (hpc : s.pc = .fetching) (htodo : s.todo = [])
    (halive : (callFetch conf i s).pc.isAlive = true) : Awake (callFetch conf i s) := by
  unfold callFetch at halive ⊢
  obtain ⟨total, dropped, purge, hpurge⟩ := fetchPurge_eq conf s
  obtain ⟨holding, hholding⟩ := updateHolding_eq conf (fetchPurge conf s)
  rw [hpurge] at hholding halive ⊢
  rw [hholding] at halive ⊢
  dsimp only at halive ⊢
  have hledger := h.ledger
  split_ifs at halive ⊢
  · refine awake_handleFetch h hpc ⟨⟨hledger.pos, hledger.ids, hledger.counts, hledger.unread⟩,
      h.hand, h.none, h.blocked, h.free, h.timeout⟩ hpc htodo rfl rfl rfl rfl rfl halive
  · exact awake_preparePoll
      (u := { s with lastTotal := total, lastDropped := dropped, purge := purge, holding := holding })
      h hpc ⟨hledger.pos, hledger.ids, hledger.counts, hledger.unread⟩ rfl rfl rfl rfl rfl _ halive

/-! ## Runs -/

/-- One step of a prompt run. -/
theorem awake_step {t : Loop κ δ υ σ γ ρ} (h : Awake s) (hinv : Inv conf s)
    (hprompt : Prompt env conf s i) (hs : step env conf s i = some t)
    (halive : t.pc.isAlive = true) : Awake t := by
  obtain ⟨⟨reads, u⟩, hnext, hu⟩ := Option.bind_eq_some_iff.mp hs
  dsimp only at hu
  split_ifs at hu with harrive
  obtain rfl : received i u = t := Option.some_inj.mp hu
  have halive : u.pc.isAlive = true := halive
  unfold next at hnext
  cases hpc : s.pc with
  | top =>
    rw [hpc] at hnext
    obtain ⟨rfl, rfl⟩ := Prod.mk.inj (Option.some_inj.mp hnext)
    exact awake_startPass h hpc (hinv.todo (by rw [hpc]; rfl)) harrive
  | matching msgp =>
    rw [hpc] at hnext
    obtain ⟨rfl, rfl⟩ := Prod.mk.inj (Option.some_inj.mp hnext)
    exact awake_fetchMatch h hinv hpc hprompt harrive halive
  | delivering msgp =>
    rw [hpc] at hnext
    obtain ⟨rfl, rfl⟩ := Prod.mk.inj (Option.some_inj.mp hnext)
    exact awake_fetchDeliver h hinv hpc hprompt harrive halive
  | fetching =>
    rw [hpc] at hnext
    obtain ⟨rfl, rfl⟩ := Prod.mk.inj (Option.some_inj.mp hnext)
    have hnone : i.arrivals = [] :=
      List.isEmpty_iff.mp (harrive.resolve_right fun hand => absurd hand.1 nofun)
    have hcall := awake_callFetch h hpc (hinv.todo (by rw [hpc]; rfl)) halive
    simpa [received, hnone] using hcall
  | polling timeout =>
    rw [hpc] at hnext
    obtain ⟨rfl, rfl⟩ := Prod.mk.inj (Option.some_inj.mp hnext)
    have hhand : s.hand = none := h.none (by rw [hpc]; rfl)
    split_ifs at halive harrive ⊢
    · cases halive
    · have hledger := Ledger.arrive (s := { s with pc := .top }) ⟨h.ledger.pos, h.ledger.ids,
        h.ledger.counts, h.ledger.unread⟩ (harrive.imp_right And.right)
      exact awake_top ⟨hledger.pos, hledger.ids, hledger.counts, hledger.unread⟩ hhand rfl
  | finished => rw [hpc] at hnext; cases hnext
  | aborted => rw [hpc] at hnext; cases hnext
  | fatal => rw [hpc] at hnext; cases hnext

theorem awake_init (world : γ) : Awake ({ world := world } : Loop κ δ υ σ γ ρ) :=
  awake_top ⟨nofun, nofun, fun _ => rfl, fun _ => Nat.le_refl _⟩ rfl rfl

/-- In a prompt run, the loop only goes to sleep with mails on the queues when each of them has a
request without a reply, and no reply to it is in the buffer. -/
theorem wakes_of_prompt (env : Env κ δ υ σ γ ρ) (conf : Conf κ δ σ) {world : γ}
    {s : Loop κ δ υ σ γ ρ} (h : Reach (step env conf) (Prompt env conf) { world := world } s) :
    Wakes s := by
  have hinv : Inv conf s ∧ (s.pc.isAlive = true → Awake s) := by
    refine h.invariant (I := fun t => Inv conf t ∧ (t.pc.isAlive = true → Awake t))
      ⟨inv_init conf world, fun _ => awake_init world⟩ fun t i t' hI hg hs => ?_
    refine ⟨inv_step hI.1 hs, fun halive => ?_⟩
    refine awake_step (hI.2 ?_) hI.1 hg hs halive
    -- a loop that has ended does not go on
    cases hpc : t.pc with
    | finished => simp [step, next, hpc] at hs
    | aborted => simp [step, next, hpc] at hs
    | fatal => simp [step, next, hpc] at hs
    | top => rfl
    | matching msgp => rfl
    | delivering msgp => rfl
    | fetching => rfl
    | polling timeout => rfl
  intro timeout hpc
  exact (hinv.2 (by rw [hpc]; rfl)).wakes hinv.1 timeout hpc

end

instance (env : Env κ δ υ σ γ ρ) (conf : Conf κ δ σ) (s : Loop κ δ υ σ γ ρ) (i : Input σ ρ) :
    Decidable (Prompt env conf s i) := by
  unfold Prompt
  split <;> infer_instance

/-- Two mails are fetched, and each of them asks the parent whether a command matches. -/
def twoAsking : List (Input Unit Unit) :=
  [{}, {}, {}, { fetch := .mail { data := ['x'], rest := () } },
    {}, {}, {}, {}, { fetch := .mail { data := ['y'], rest := () } }, {}, {}, {}, {}, {}, {}]

theorem wakes_of_prompt_twoAsking :
    (exec (guarded (step idleEnv (plainConf askingConf))
        fun s i => decide (Prompt idleEnv (plainConf askingConf) s i))
      { world := () } twoAsking).isSome = true ∧
    ∀ s, exec (guarded (step idleEnv (plainConf askingConf))
        fun s i => decide (Prompt idleEnv (plainConf askingConf) s i))
      { world := () } twoAsking = some s → Wakes s :=
  ⟨by decide, fun _ hs =>
    wakes_of_prompt idleEnv _ (reach_of_execGuarded (fun _ _ h => of_decide_eq_true h) hs)⟩

/-- Both replies are read at once. The first mail goes on to an action that it asks the parent for
as well. -/
def bothReplies : List (Input Unit Unit) :=
  twoAsking.append
    [{ arrivals := [{ id := 1, error := 1, body := () }, { id := 2, error := 1, body := () }] },
      {}, {}, {}, {}, {}, {}, {}]

/-- The loop behind these. -/
def asleep : Loop Unit Unit Unit Unit Unit Unit :=
  (exec (step idleEnv (plainConf askingConf)) { world := () } bothReplies).get (by decide)

/-- The loop sleeps with the reply for the second mail in the buffer. -/
theorem not_wakes_bothReplies :
    ∃ s, Reach (step idleEnv (plainConf askingConf)) anyStep { world := () } s ∧ ¬ Wakes s := by
  refine ⟨asleep, reach_get _, fun hwakes => ?_⟩
  have hall := hwakes 900 rfl (by decide) (by decide)
  -- the second mail is the only one on the matching queue
  have hmail : ∃ m ∈ asleep.matchq ++ asleep.deliverq, ∃ msg ∈ asleep.buffer, msg.id = m.msgid :=
    ⟨_, .head _, _, .head _, rfl⟩
  obtain ⟨m, hm, msg, hmsg, hid⟩ := hmail
  exact (hall m hm).2 msg hmsg hid

end Fdm.Account
