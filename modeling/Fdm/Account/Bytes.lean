import Fdm.Account.Wakeup

/-!
# The bytes of a mail that is away

The data of a mail is shared with the process that runs its command or its delivery. A mail that
waits for a reply is gone over in each pass of the loop, and `mail_match` puts blanks for the
newlines of its folded lines before it looks whether the mail waits. The bytes stay as they were
sent when no mail with folded lines is gone over so.
-/

namespace Fdm.Account

open Rules Lib.Runs

variable {κ δ υ σ γ ρ : Type}

/-- A request for the mail has been sent, and its reply has not been taken. -/
def Away (s : Loop κ δ υ σ γ ρ) (m : MailCtx κ δ υ σ) : Prop :=
  s.taken.count m.idx < s.requests.count m.idx

instance (s : Loop κ δ υ σ γ ρ) (m : MailCtx κ δ υ σ) : Decidable (Away s m) :=
  inferInstanceAs (Decidable (_ < _))

/-- The bytes of each mail that is away are those that were sent. -/
def Stable (s : Loop κ δ υ σ γ ρ) : Prop :=
  ∀ m ∈ s.mails, Away s m → m.mail.data = s.sentData m.idx

/-- The condition on a step: a mail that `mail_match` is called for while it waits, and without a
reply for it, has no folded lines. -/
def Unfolded (s : Loop κ δ υ σ γ ρ) : Prop :=
  match s.pc, s.todo with
  | .matching msgp, this :: _ => this.msgid ≠ 0 → ownMsg this msgp = none → this.mail.wrapped = []
  | _, _ => True

/-- What is known about some mails: one that is away waits, and another newline does nothing to
it. -/
structure Sent (s : Loop κ δ υ σ γ ρ) (mails : List (MailCtx κ δ υ σ)) : Prop where
  fresh : ∀ id ∈ s.requests, id ≤ s.idx
  once : ∀ id, s.requests.count id ≤ s.taken.count id + 1
  waits : ∀ m ∈ mails, Away s m → m.msgid ≠ 0
  newline : ∀ m ∈ mails, Away s m → m.mail.wrapchar = '\n' ∨ m.mail.wrapped = []
  data : ∀ m ∈ mails, Away s m → m.mail.data = s.sentData m.idx

/-- What has been sent stays right while no mail gets a new request. -/
theorem Sent.move {s t : Loop κ δ υ σ γ ρ} {mails mails' : List (MailCtx κ δ υ σ)} (h : Sent s mails)
    (hrequests : t.requests = s.requests) (htaken : t.taken = s.taken)
    (hsent : t.sentData = s.sentData) (hidx : s.idx ≤ t.idx) (hsub : ∀ m ∈ mails', m ∈ mails) :
    Sent t mails' := by
  have haway : ∀ m, Away t m → Away s m := by
    intro m
    unfold Away
    rw [hrequests, htaken]
    exact id
  constructor
  · intro id hid
    rw [hrequests] at hid
    exact (h.fresh id hid).trans hidx
  · intro id
    rw [hrequests, htaken]
    exact h.once id
  · exact fun m hm hm' => h.waits m (hsub m hm) (haway m hm')
  · exact fun m hm hm' => h.newline m (hsub m hm) (haway m hm')
  · intro m hm hm'
    rw [hsent]
    exact h.data m (hsub m hm) (haway m hm')

/-- With a newline at its folded lines, or without any, a mail is not changed by `set_wrapped`. -/
theorem setWrapped_data {ch : Char} {m : MailData σ}
    (hch : ch = '\n' ∨ m.wrapped = []) (h : m.wrapchar = '\n' ∨ m.wrapped = []) :
    (m.setWrapped ch).data = m.data := by
  unfold MailData.setWrapped
  split_ifs with hsame
  · rfl
  · have hnone : m.wrapped = [] := by
      rcases hch with rfl | hnone
      · exact h.resolve_left hsame
      · exact hnone
    simp [putAll, hnone]

/-- Folds that are set to newlines, and a mail without folds, are as they were fetched. -/
theorem setWrapped_newline {ch : Char} {m : MailData σ}
    (hch : ch = '\n' ∨ m.wrapped = []) :
    (m.setWrapped ch).wrapchar = '\n' ∨ (m.setWrapped ch).wrapped = [] := by
  rcases hch with rfl | hnone
  · exact .inl (setWrapped_wrapchar '\n' m)
  · unfold MailData.setWrapped
    split_ifs
    · exact .inr hnone
    · exact .inr hnone

/-! ## A call -/

section

variable {ch : Char} {s : Loop κ δ υ σ γ ρ} {this : MailCtx κ δ υ σ} {msgp : Option (Msg ρ)}
  {ran : Ran κ δ υ σ γ} {rest : List (MailCtx κ δ υ σ)}

/-- The other mails, behind a call. -/
theorem away_called {m : MailCtx κ δ υ σ} (hne : m.idx ≠ this.idx)
    (h : Away (s.called this msgp ran) m) : Away s m := by
  have hcount : ∀ l : List ℕ, (l ++ [this.idx]).count m.idx = l.count m.idx := by
    intro l
    rw [List.count_append, List.count_singleton, if_neg (by simpa using hne.symm), Nat.add_zero]
  unfold Away Loop.called at *
  dsimp only at h
  split_ifs at h <;> simpa only [hcount] using h

/-- A call about one mail sends nothing of another. -/
theorem sentData_called {id : ℕ} (hne : id ≠ this.idx) :
    (s.called this msgp ran).sentData id = s.sentData id := by
  unfold Loop.called
  dsimp only
  split_ifs
  · exact Function.update_of_ne hne _ _
  · rfl

/-- A mail only sends a request when it is not away. -/
theorem once_called (h : Sent s (this :: rest)) (id : ℕ) :
    (s.called this msgp ran).requests.count id ≤ (s.called this msgp ran).taken.count id + 1 := by
  have honce := h.once id
  have htaken : s.taken.count id ≤ (s.called this msgp ran).taken.count id := by
    unfold Loop.called
    dsimp only
    split_ifs
    · rw [List.count_append]
      omega
    · exact le_rfl
  cases hasks : asks this ran.mctx with
  | false =>
    have hsame : (s.called this msgp ran).requests = s.requests := by simp [Loop.called, hasks]
    rw [hsame]
    omega
  | true =>
    have hmore : (s.called this msgp ran).requests = s.requests ++ [this.idx] := by
      simp [Loop.called, hasks]
    simp only [asks, Bool.and_eq_true, decide_eq_true_eq, ne_eq] at hasks
    have hnot : ¬ Away s this := fun haway => h.waits this (.head _) haway hasks.1
    rw [hmore, List.count_append, List.count_singleton]
    by_cases hid : this.idx = id
    · subst hid
      unfold Away at hnot
      simp only [beq_self_eq_true, if_true]
      omega
    · rw [if_neg (by simpa using hid)]
      omega

/-- The mail of a call is away behind it because it has just sent a request, or because it still
waits. -/
theorem away_this (h : Sent s (this :: rest)) (hout : Outcome ch this msgp ran)
    (hidx : ran.mctx.idx = this.idx) (haway : Away (s.called this msgp ran) ran.mctx) :
    asks this ran.mctx = true ∧ ran.mctx.mail.wrapchar = '\n' ∨
      Away s this ∧ ownMsg this msgp = none ∧ asks this ran.mctx = false ∧
        ran.mctx = this.wrap ch := by
  by_cases htakes : takes this msgp = true
  · -- a reply has been taken
    have hasks : asks this ran.mctx = false := by
      simp only [takes, Bool.and_eq_true, decide_eq_true_eq, ne_eq] at htakes
      simp [asks, htakes.1]
    have honce := h.once this.idx
    simp [Away, Loop.called, htakes, hasks, hidx] at haway
    omega
  · cases hasks : asks this ran.mctx with
    | true =>
      simp only [asks, Bool.and_eq_true, decide_eq_true_eq, ne_eq] at hasks
      left
      refine ⟨rfl, ?_⟩
      cases hout with
      | waits hmsgid => exact absurd hasks.1 hmsgid
      | fails _ hown =>
        rcases hown with ⟨-, hfree⟩ | ⟨hmsgid, -⟩
        · exact absurd hfree hasks.2
        · exact absurd hasks.1 hmsgid
      | asks _ _ _ hwrapchar => exact hwrapchar
      | leaves _ _ hfree => exact absurd hfree hasks.2
      | goes _ _ _ hfree => exact absurd hfree hasks.2
    | false =>
      right
      rw [called_idle s (by simpa using htakes) hasks] at haway
      have hold : Away s this := by
        unfold Away at *
        rwa [hidx] at haway
      have hmsgid := h.waits this (.head _) hold
      have hown : ownMsg this msgp = none := by
        simpa [takes, hmsgid] using htakes
      refine ⟨hold, hown, rfl, ?_⟩
      cases hout with
      | waits _ _ _ hmctx => exact hmctx
      | fails _ hnot =>
        rcases hnot with ⟨hzero, -⟩ | ⟨-, hsome⟩
        · exact absurd hzero hmsgid
        · exact absurd hown hsome
      | asks hzero => exact absurd hzero hmsgid
      | leaves hzero => exact absurd hzero hmsgid
      | goes hnot =>
        rcases hnot with hzero | hsome
        · exact absurd hzero hmsgid
        · exact absurd hown hsome

/-- A call keeps what is known. -/
theorem Sent.called (h : Sent s (this :: rest)) (hout : Outcome ch this msgp ran)
    (hidx : ran.mctx.idx = this.idx) (hle : this.idx ≤ s.idx)
    (hnew : this.idx ∉ rest.map MailCtx.idx)
    (hguard : ch = '\n' ∨ (this.msgid ≠ 0 → ownMsg this msgp = none → this.mail.wrapped = [])) :
    Sent (s.called this msgp ran) (ran.mctx :: rest) := by
  have hother : ∀ m ∈ rest, m.idx ≠ this.idx := fun m hm heq =>
    hnew (List.mem_map.mpr ⟨m, hm, heq⟩)
  have hthis := away_this h hout hidx
  -- a mail that still waits is wrapped with newlines, or has no folded lines
  have hch : Away s this → ownMsg this msgp = none → ch = '\n' ∨ this.mail.wrapped = [] :=
    fun hold hown => hguard.imp_right fun hfold => hfold (h.waits this (.head _) hold) hown
  constructor
  · intro id hid
    unfold Loop.called at hid ⊢
    dsimp only at hid ⊢
    split_ifs at hid
    · rcases List.mem_append.mp hid with hid | hid
      · exact h.fresh id hid
      · rw [List.mem_singleton.mp hid]
        exact hle
    · exact h.fresh id hid
  · exact once_called h
  · rintro m (_ | ⟨_, hm⟩) haway
    · rcases hthis haway with ⟨hasks, -⟩ | ⟨hold, -, -, hmctx⟩
      · simp only [asks, Bool.and_eq_true, decide_eq_true_eq, ne_eq] at hasks
        exact hasks.2
      · rw [hmctx]
        exact h.waits this (.head _) hold
    · exact h.waits m (.tail _ hm) (away_called (hother m hm) haway)
  · rintro m (_ | ⟨_, hm⟩) haway
    · rcases hthis haway with ⟨-, hwrapchar⟩ | ⟨hold, hown, -, hmctx⟩
      · exact .inl hwrapchar
      · rw [hmctx]
        exact setWrapped_newline (hch hold hown)
    · exact h.newline m (.tail _ hm) (away_called (hother m hm) haway)
  · rintro m (_ | ⟨_, hm⟩) haway
    · rcases hthis haway with ⟨hasks, -⟩ | ⟨hold, hown, hasks, hmctx⟩
      · simp [Loop.called, hasks, hidx]
      · have hsent : (s.called this msgp ran).sentData = s.sentData := by
          simp [Loop.called, hasks]
        rw [hsent, hidx, hmctx, ← h.data this (.head _) hold]
        exact setWrapped_data (hch hold hown) (h.newline this (.head _) hold)
    · rw [sentData_called (hother m hm)]
      exact h.data m (.tail _ hm) (away_called (hother m hm) haway)

end

/-! ## Steps -/

section

variable {env : Env κ δ υ σ γ ρ} {conf : Conf κ δ σ} {s t : Loop κ δ υ σ γ ρ} {i : Input σ ρ}

/-- What a step leaves as it is: the requests and the replies, and the mails apart from their
places. -/
def Idle (s t : Loop κ δ υ σ γ ρ) : Prop :=
  t.requests = s.requests ∧ t.taken = s.taken ∧ t.sentData = s.sentData ∧ s.idx ≤ t.idx ∧
    ∀ m ∈ t.mails, m ∈ s.mails

/-- A step that calls nothing sends nothing. -/
theorem Sent.idle (h : Sent s s.mails) (hidle : Idle s t) : Sent t t.mails :=
  h.move hidle.1 hidle.2.1 hidle.2.2.1 hidle.2.2.2.1 hidle.2.2.2.2

/-- Behind a call the mail is on one of the queues, or on none of them. -/
structure Tried (s : Loop κ δ υ σ γ ρ) (this : MailCtx κ δ υ σ) (todo : List (MailCtx κ δ υ σ))
    (msgp : Option (Msg ρ)) (ran : Ran κ δ υ σ γ) (t : Loop κ δ υ σ γ ρ) : Prop where
  requests : t.requests = (s.called this msgp ran).requests
  taken : t.taken = (s.called this msgp ran).taken
  sent : t.sentData = (s.called this msgp ran).sentData
  idx : t.idx = s.idx
  mails : ∀ m ∈ t.mails, m ∈ ran.mctx :: (s.matchq ++ todo ++ s.deliverq)

/-- `fetch_match` makes one call about the mail in front. -/
theorem tried_fetchMatch {msgp : Option (Msg ρ)} {this : MailCtx κ δ υ σ}
    {todo : List (MailCtx κ δ υ σ)} (htodo : s.todo = this :: todo) (fails : Bool) :
    Tried s this todo msgp (mailMatch env conf.rules this s.world msgp)
      (fetchMatch env conf fails msgp s).2 := by
  unfold fetchMatch fetchDequeue
  simp only [htodo]
  generalize mailMatch env conf.rules this s.world msgp = ran
  split
  all_goals first | split_ifs | skip
  all_goals
    refine ⟨rfl, rfl, rfl, rfl, fun m hm => ?_⟩
    simp only [Loop.mails, Loop.called, List.mem_append, List.mem_cons, List.not_mem_nil] at hm ⊢
    tauto

/-- `fetch_deliver` makes one call about the mail in front. -/
theorem tried_fetchDeliver {msgp : Option (Msg ρ)} {this : MailCtx κ δ υ σ}
    {todo : List (MailCtx κ δ υ σ)} (htodo : s.todo = this :: todo) :
    Tried s this todo msgp (mailDeliver env this s.world msgp) (fetchDeliver env msgp s).2 := by
  unfold fetchDeliver
  simp only [htodo]
  generalize mailDeliver env this s.world msgp = ran
  split
  all_goals
    refine ⟨rfl, rfl, rfl, rfl, fun m hm => ?_⟩
    simp only [Loop.mails, Loop.called, List.mem_append, List.mem_cons, List.not_mem_nil] at hm ⊢
    tauto

/-- Behind a call, a mail that waits has the bytes that were sent. -/
theorem Sent.tried {ch : Char} {msgp : Option (Msg ρ)} {this : MailCtx κ δ υ σ}
    {todo : List (MailCtx κ δ υ σ)} {ran : Ran κ δ υ σ γ} (h : Sent s s.mails) (hinv : Inv conf s)
    (htodo : s.todo = this :: todo) (hout : Outcome ch this msgp ran)
    (hidx : ran.mctx.idx = this.idx)
    (hguard : ch = '\n' ∨ (this.msgid ≠ 0 → ownMsg this msgp = none → this.mail.wrapped = []))
    (ht : Tried s this todo msgp ran t) : Sent t t.mails := by
  have hperm : s.mails.Perm (this :: (s.matchq ++ todo ++ s.deliverq)) := by
    simp only [Loop.mails, htodo, List.append_assoc, List.cons_append]
    exact List.perm_middle
  have hsent : Sent s (this :: (s.matchq ++ todo ++ s.deliverq)) :=
    h.move rfl rfl rfl le_rfl fun m hm => hperm.mem_iff.mpr hm
  have hnodup := (hinv.perm.nodup_iff.mpr hinv.nodup)
  have hnew := (hperm.map MailCtx.idx).nodup_iff.mp (List.nodup_append.mp hnodup).2.1
  rw [List.map_cons, List.nodup_cons] at hnew
  have hle : this.idx ≤ s.idx := by
    refine hinv.enqueued _ (hinv.perm.mem_iff.mp (List.mem_append_right _ ?_))
    exact List.mem_map.mpr ⟨this, hperm.mem_iff.mpr (.head _), rfl⟩
  exact (hsent.called hout hidx hle hnew.1 hguard).move ht.requests ht.taken ht.sent
    ht.idx.ge ht.mails

/-- The fetcher: a mail that is put on the queue has not sent anything. -/
theorem sent_fetchEnqueue (h : Sent s s.mails) (fails : Bool) (m : MailData σ) :
    Sent (fetchEnqueue conf fails m s) (fetchEnqueue conf fails m s).mails := by
  unfold fetchEnqueue
  dsimp only
  split_ifs
  · exact h.idle ⟨rfl, rfl, rfl, le_rfl, fun _ hm => hm⟩
  · exact h.idle ⟨rfl, rfl, rfl, le_rfl, fun _ hm => hm⟩
  · exact h.idle ⟨rfl, rfl, rfl, le_rfl, fun _ hm => hm⟩
  · exact h.idle ⟨rfl, rfl, rfl, le_rfl, fun _ hm => hm⟩
  · exact h.idle ⟨rfl, rfl, rfl, le_rfl, fun _ hm => hm⟩
  · generalize hnew : newCtx conf.rules (s.idx + 1)
      (conf.fillIn { conf.trimFrom m with decision := .drop }) = new
    have hid : new.idx = s.idx + 1 := by rw [← hnew]; rfl
    -- its id is larger than those of all requests
    have hnot : ¬ Away s new := by
      have hzero : s.requests.count new.idx = 0 := by
        refine List.count_eq_zero.mpr fun hmem => ?_
        have hle := h.fresh _ hmem
        omega
      unfold Away
      omega
    have hall : ∀ m ∈ s.matchq ++ [new] ++ s.todo ++ s.deliverq, Away s m → m ∈ s.mails := by
      intro m hm haway
      simp only [Loop.mails, List.mem_append, List.mem_singleton] at hm ⊢
      rcases hm with ((hm | rfl) | hm) | hm
      · exact .inl (.inl hm)
      · exact absurd haway hnot
      · exact .inl (.inr hm)
      · exact .inr hm
    constructor
    · exact fun id hid => (h.fresh id hid).trans (Nat.le_succ _)
    · exact h.once
    · exact fun m hm haway => h.waits m (hall m hm haway) haway
    · exact fun m hm haway => h.newline m (hall m hm haway) haway
    · exact fun m hm haway => h.data m (hall m hm haway) haway

theorem sent_preparePoll (h : Sent s s.mails) (sockets : ℕ) :
    Sent (preparePoll conf sockets s) (preparePoll conf sockets s).mails := by
  unfold preparePoll
  split_ifs
  · exact h.idle ⟨rfl, rfl, rfl, le_rfl, fun _ hm => hm⟩
  · exact h.idle ⟨rfl, rfl, rfl, le_rfl, fun _ hm => hm⟩

/-- A mail that was just fetched has sent nothing. -/
theorem sent_handleFetch (h : Sent s s.mails) :
    Sent (handleFetch conf i s) (handleFetch conf i s).mails := by
  unfold handleFetch
  split
  · exact h.idle ⟨rfl, rfl, rfl, le_rfl, fun _ hm => hm⟩
  · exact sent_preparePoll (s := { s with complete := true })
      (h.idle ⟨rfl, rfl, rfl, le_rfl, fun _ hm => hm⟩) _
  · exact h.idle ⟨rfl, rfl, rfl, le_rfl, fun _ hm => hm⟩
  · exact sent_preparePoll h _
  · exact sent_fetchEnqueue h _ _

theorem sent_callFetch (h : Sent s s.mails) :
    Sent (callFetch conf i s) (callFetch conf i s).mails := by
  unfold callFetch
  obtain ⟨total, dropped, purge, hpurge⟩ := fetchPurge_eq conf s
  obtain ⟨holding, hholding⟩ := updateHolding_eq conf (fetchPurge conf s)
  rw [hpurge] at hholding ⊢
  rw [hholding]
  dsimp only
  split_ifs
  · refine sent_handleFetch ?_
    exact h.idle ⟨rfl, rfl, rfl, le_rfl, fun _ hm => hm⟩
  · refine sent_preparePoll ?_ _
    exact h.idle ⟨rfl, rfl, rfl, le_rfl, fun _ hm => hm⟩

/-- Each step keeps the invariant, where the mails are unfolded as the condition says. -/
theorem sent_next {reads : Bool} (h : Sent s s.mails) (hinv : Inv conf s) (hguard : Unfolded s)
    (hs : next env conf i s = some (reads, t)) : Sent t t.mails := by
  unfold next at hs
  cases hpc : s.pc with
  | top =>
    rw [hpc] at hs
    obtain rfl := congrArg Prod.snd (Option.some_inj.mp hs)
    have htodo := hinv.todo (by rw [hpc]; rfl)
    refine h.idle ?_
    unfold startPass
    dsimp only
    split
    · exact ⟨rfl, rfl, rfl, le_rfl, fun m hm => by simpa [Loop.mails, htodo] using hm⟩
    · exact ⟨rfl, rfl, rfl, le_rfl, fun m hm => by simpa [Loop.mails, htodo] using hm⟩
  | matching msgp =>
    rw [hpc] at hs
    obtain rfl := congrArg Prod.snd (Option.some_inj.mp hs)
    cases htodo : s.todo with
    | nil =>
      refine h.idle ?_
      simp only [fetchMatch, htodo]
      exact ⟨rfl, rfl, rfl, le_rfl, fun m hm => by simpa [Loop.mails, htodo] using hm⟩
    | cons this todo =>
      have hfold : this.msgid ≠ 0 → ownMsg this msgp = none → this.mail.wrapped = [] := by
        unfold Unfolded at hguard
        simpa only [hpc, htodo] using hguard
      exact h.tried hinv htodo (outcome_mailMatch env conf.rules this s.world msgp)
        (mailMatch_idx this s.world msgp) (.inr hfold) (tried_fetchMatch htodo _)
  | delivering msgp =>
    rw [hpc] at hs
    obtain rfl := congrArg Prod.snd (Option.some_inj.mp hs)
    cases htodo : s.todo with
    | nil =>
      refine h.idle ?_
      simp only [fetchDeliver, htodo]
      exact ⟨rfl, rfl, rfl, le_rfl, fun m hm => by simpa [Loop.mails, htodo] using hm⟩
    | cons this todo =>
      exact h.tried hinv htodo (outcome_mailDeliver env this s.world msgp)
        (mailDeliver_idx this s.world msgp) (.inl rfl) (tried_fetchDeliver htodo)
  | fetching =>
    rw [hpc] at hs
    obtain rfl := congrArg Prod.snd (Option.some_inj.mp hs)
    exact sent_callFetch h
  | polling timeout =>
    rw [hpc] at hs
    obtain rfl := congrArg Prod.snd (Option.some_inj.mp hs)
    dsimp only
    split_ifs
    · exact h.idle ⟨rfl, rfl, rfl, le_rfl, fun _ hm => hm⟩
    · exact h.idle ⟨rfl, rfl, rfl, le_rfl, fun _ hm => hm⟩
  | finished => rw [hpc] at hs; cases hs
  | aborted => rw [hpc] at hs; cases hs
  | fatal => rw [hpc] at hs; cases hs

theorem sent_step (h : Sent s s.mails) (hinv : Inv conf s) (hguard : Unfolded s)
    (hs : step env conf s i = some t) : Sent t t.mails := by
  obtain ⟨⟨reads, u⟩, hnext, hu⟩ := Option.bind_eq_some_iff.mp hs
  have hsent := sent_next h hinv hguard hnext
  dsimp only at hu
  split_ifs at hu
  obtain rfl := Option.some_inj.mp hu
  exact hsent.idle ⟨rfl, rfl, rfl, le_rfl, fun _ hm => hm⟩

/-- In a run in which no mail with folded lines is gone over while it waits, the bytes of a mail
stay as they were sent until the reply has been taken. -/
theorem stable_of_unfolded (env : Env κ δ υ σ γ ρ) (conf : Conf κ δ σ) {world : γ}
    {s : Loop κ δ υ σ γ ρ}
    (h : Reach (step env conf) (fun t _ => Unfolded t) { world := world } s) : Stable s := by
  have hinv : Inv conf s ∧ Sent s s.mails :=
    h.invariant (I := fun t => Inv conf t ∧ Sent t t.mails)
      ⟨inv_init conf world, nofun, fun _ => Nat.zero_le _, nofun, nofun, nofun⟩
      fun _ _ _ hI hguard hs => ⟨inv_step hI.1 hs, sent_step hI.2 hI.1 hguard hs⟩
  exact hinv.2.data

end

instance (s : Loop κ δ υ σ γ ρ) : Decidable (Unfolded s) :=
  let decide : (pc : At ρ) → (todo : List (MailCtx κ δ υ σ)) →
      Decidable (Unfolded { s with pc := pc, todo := todo })
    | .matching _, _ :: _ => inferInstanceAs (Decidable (_ → _ → _))
    | .matching _, [] | .top, _ | .delivering _, _ | .fetching, _ | .polling _, _ | .finished, _
    | .aborted, _ | .fatal, _ => isTrue trivial
  decide s.pc s.todo

/-- Two mails without folded lines. One pass goes over them while they wait. -/
def oncePassed : List (Input Unit Unit) := twoAsking.append [{}, {}, {}, {}]

theorem stable_of_unfolded_oncePassed :
    (exec (guarded (step idleEnv (plainConf askingConf)) fun s _ => decide (Unfolded s))
      { world := () } oncePassed).isSome = true ∧
    ∀ s, exec (guarded (step idleEnv (plainConf askingConf)) fun s _ => decide (Unfolded s))
      { world := () } oncePassed = some s → Stable s :=
  ⟨by decide, fun _ hs =>
    stable_of_unfolded idleEnv _ (reach_of_execGuarded (fun _ _ h => of_decide_eq_true h) hs)⟩

/-- A mail with a folded line at its second byte. -/
def foldedConf : Conf Unit Unit Unit :=
  { plainConf askingConf with fillIn := fun m => { m with wrapped := [1] } }

/-- It asks the parent, and the next pass goes over it before the reply has come in. -/
def foldedPassed : List (Input Unit Unit) :=
  [{}, {}, {}, { fetch := .mail { data := ['x', '\n', ' '], rest := () } }, {}, {}, {}, {}, {}, {},
    {}, {}]

/-- The loop behind these. -/
def blanked : Loop Unit Unit Unit Unit Unit Unit :=
  (exec (step idleEnv foldedConf) { world := () } foldedPassed).get (by decide)

/-- The newline has become a blank while the command is away with the mail. -/
theorem not_stable_foldedPassed :
    ∃ s, Reach (step idleEnv foldedConf) anyStep { world := () } s ∧ ¬ Stable s := by
  refine ⟨blanked, reach_get _, fun hstable => ?_⟩
  have hmail : ∃ m ∈ blanked.mails, Away blanked m ∧ m.mail.data ≠ blanked.sentData m.idx :=
    ⟨_, .head _, by decide, by decide⟩
  obtain ⟨m, hm, haway, hne⟩ := hmail
  exact hne (hstable m hm haway)

end Fdm.Account
