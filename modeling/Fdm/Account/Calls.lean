import Fdm.Account.Queues

/-!
# What a call does to a mail

A call of `mail_match` or `mail_deliver` leaves a mail waiting, or fails, or sends a request, or is
the last one, or goes on. A mail waits just when it has sent a request whose reply it has not
taken.
-/

namespace Fdm.Account

open Rules Lib.Runs

variable {κ δ υ σ γ ρ : Type}

/-- What a call does. With no message for it, a mail that waits is only wrapped, with `ch`. -/
inductive Outcome (ch : Char) (this : MailCtx κ δ υ σ) (msgp : Option (Msg ρ))
    (ran : Ran κ δ υ σ γ) : Prop
  | waits : this.msgid ≠ 0 → ownMsg this msgp = none → ran.ret = .mailBlocked →
      ran.mctx = this.wrap ch → Outcome ch this msgp ran
  | fails : ran.ret = .mailError ∨ ran.ret = .fatal →
      this.msgid = 0 ∧ ran.mctx.msgid = 0 ∨ this.msgid ≠ 0 ∧ ownMsg this msgp ≠ none →
      Outcome ch this msgp ran
  | asks : this.msgid = 0 → ran.ret = .mailBlocked → ran.mctx.msgid = this.idx →
      ran.mctx.mail.wrapchar = '\n' → Outcome ch this msgp ran
  | leaves : this.msgid = 0 → ran.ret = .mailDone → ran.mctx.msgid = 0 → Outcome ch this msgp ran
  | goes : this.msgid = 0 ∨ ownMsg this msgp ≠ none → ran.ret ≠ .mailBlocked →
      ran.ret ≠ .mailDone → ran.mctx.msgid = 0 → Outcome ch this msgp ran

section

variable {env : Env κ δ υ σ γ ρ} {conf : Rules.Conf κ δ}

@[simp] theorem setWrapped_wrapchar (ch : Char) (m : MailData σ) :
    (m.setWrapped ch).wrapchar = ch := by
  unfold MailData.setWrapped
  split_ifs with h
  · exact h
  · rfl

variable (env conf) in
/-- What `mail_match` returns behind an item. -/
theorem nextExpritem_ret (mctx : MailCtx κ δ υ σ) (r : Rule κ δ) :
    (nextExpritem env conf mctx r).1 ≠ .mailBlocked ∧ (nextExpritem env conf mctx r).1 ≠ .mailDone ∧
      (nextExpritem env conf mctx r).2.msgid = mctx.msgid := by
  unfold nextExpritem ruleMatched leafMatched
  dsimp only
  split_ifs
  · exact ⟨nofun, nofun, rfl⟩
  · exact ⟨nofun, nofun, rfl⟩
  · exact ⟨nofun, nofun, rfl⟩
  · split
    · exact ⟨nofun, nofun, rfl⟩
    · exact ⟨nofun, nofun, rfl⟩
  · split
    · exact ⟨nofun, nofun, rfl⟩
    · exact ⟨nofun, nofun, rfl⟩

theorem outcome_commandDone {this mctx : MailCtx κ δ υ σ} {msgp : Option (Msg ρ)} (world : γ)
    (ei : Expritem κ) (r : Rule κ δ) (msg : Msg ρ) (hmsgid : this.msgid ≠ 0)
    (hown : ownMsg this msgp ≠ none) :
    Outcome ' ' this msgp (commandDone env conf mctx world ei r msg) := by
  unfold commandDone
  split_ifs
  · exact .fails (.inr rfl) (.inr ⟨hmsgid, hown⟩)
  · dsimp only
    split
    · obtain ⟨hblocked, hdone, hfree⟩ := nextExpritem_ret env conf
        { mctx with
          msgid := 0
          mail := { mctx.mail with rest := env.receiveTags msg.body mctx.mail.rest }
          result := applyResult ei mctx.result false } r
      exact .goes (.inr hown) hblocked hdone hfree
    · obtain ⟨hblocked, hdone, hfree⟩ := nextExpritem_ret env conf
        { mctx with
          msgid := 0
          mail := { mctx.mail with rest := env.receiveTags msg.body mctx.mail.rest }
          result := applyResult ei mctx.result true } r
      exact .goes (.inr hown) hblocked hdone hfree
    · exact .fails (.inl rfl) (.inr ⟨hmsgid, hown⟩)
    · exact .fails (.inr rfl) (.inr ⟨hmsgid, hown⟩)

variable (env conf) in
/-- A mail that asks the parent has its lines as they are. -/
theorem matchItem_parent (cond : Cond κ) (matched : Bool) (m : MailData σ) (world : γ)
    (h : (matchItem env conf cond matched m world).1 = .matchParent) :
    (matchItem env conf cond matched m world).2.1.wrapchar = '\n' := by
  cases cond with
  | command user data =>
    unfold matchItem matchCommandMatch at h ⊢
    dsimp only at h ⊢
    split
    · next heq =>
      split at heq
      · cases heq
      · obtain ⟨-, rfl⟩ := Prod.mk.inj heq
        exact setWrapped_wrapchar '\n' m
    · next heq =>
      rw [heq] at h
      cases h
  | other data =>
    unfold matchItem at h
    dsimp only at h
    split at h <;> cases h

theorem outcome_checkItem {this mctx : MailCtx κ δ υ σ} (msgp : Option (Msg ρ)) (world : γ)
    (ei : Expritem κ) (r : Rule κ δ) (hthis : this.msgid = 0) (hmsgid : mctx.msgid = 0)
    (hidx : mctx.idx = this.idx) :
    Outcome ' ' this msgp (checkItem env conf mctx world ei r) := by
  unfold checkItem
  split_ifs
  · obtain ⟨hblocked, hdone, hsame⟩ := nextExpritem_ret env conf mctx r
    exact .goes (.inl hthis) hblocked hdone (hsame.trans hmsgid)
  · have hparent := matchItem_parent env conf ei.cond mctx.matched mctx.mail world
    generalize matchItem env conf ei.cond mctx.matched mctx.mail world = res at hparent ⊢
    obtain ⟨res, m, world'⟩ := res
    dsimp only at hparent ⊢
    split
    · exact .fails (.inl rfl) (.inl ⟨hthis, hmsgid⟩)
    · exact .asks hthis rfl hidx (hparent rfl)
    · obtain ⟨hblocked, hdone, hsame⟩ := nextExpritem_ret env conf
        { mctx with mail := m, result := applyResult ei mctx.result true } r
      exact .goes (.inl hthis) hblocked hdone (hsame.trans hmsgid)
    · obtain ⟨hblocked, hdone, hsame⟩ := nextExpritem_ret env conf
        { mctx with mail := m, result := applyResult ei mctx.result false } r
      exact .goes (.inl hthis) hblocked hdone (hsame.trans hmsgid)

variable (env conf) in
/-- A call of `mail_match`. -/
theorem outcome_mailMatch (this : MailCtx κ δ υ σ) (world : γ) (msgp : Option (Msg ρ)) :
    Outcome ' ' this msgp (mailMatch env conf this world msgp) := by
  unfold mailMatch
  dsimp only
  by_cases hmsgid : this.msgid = 0
  · rw [if_neg (by simpa using hmsgid)]
    split_ifs
    · exact .leaves hmsgid rfl hmsgid
    · unfold matchRule
      split
      · exact .leaves hmsgid rfl hmsgid
      · split
        · exact outcome_checkItem msgp world _ _ hmsgid hmsgid rfl
        · exact outcome_checkItem msgp world _ _ hmsgid hmsgid rfl
  · rw [if_pos (by simpa using hmsgid), ownMsg_wrap]
    split
    · next hown => exact .waits hmsgid hown rfl rfl
    · next msg hown =>
      unfold resumeMatch
      split
      · exact outcome_commandDone world _ _ msg hmsgid (by simp [hown])
      · exact .fails (.inr rfl) (.inr ⟨hmsgid, by simp [hown]⟩)

/-- An action for the parent leaves the lines as they are. -/
theorem startAction_parent {m m' : MailData σ} {world world' : γ} {ruleidx : ℕ}
    {dctx : DeliverCtx δ υ}
    (h : startAction env (m.setWrapped '\n') world ruleidx dctx = (.actionParent, m', world')) :
    m'.wrapchar = '\n' := by
  unfold startAction at h
  dsimp only at h
  split at h
  · have hret := congrArg Prod.fst h
    dsimp only at hret
    split_ifs at hret
  · obtain rfl := congrArg (Prod.fst ∘ Prod.snd) h
    exact setWrapped_wrapchar '\n' m

variable (env) in
/-- A call of `mail_deliver`. -/
theorem outcome_mailDeliver (this : MailCtx κ δ υ σ) (world : γ) (msgp : Option (Msg ρ)) :
    Outcome '\n' this msgp (mailDeliver env this world msgp) := by
  unfold mailDeliver
  dsimp only
  by_cases hmsgid : this.msgid = 0
  · rw [if_neg (by simpa using hmsgid)]
    unfold startFirst
    split
    · exact .goes (.inl hmsgid) nofun nofun hmsgid
    · split
      · exact .fails (.inl rfl) (.inl ⟨hmsgid, hmsgid⟩)
      · next heq => exact .asks hmsgid rfl rfl (startAction_parent heq)
      · exact .goes (.inl hmsgid) nofun nofun hmsgid
  · rw [if_pos (by simpa using hmsgid), ownMsg_wrap]
    split
    · next hown => exact .waits hmsgid hown rfl rfl
    · next msg hown =>
      unfold resumeDeliver
      split
      · exact .fails (.inr rfl) (.inr ⟨hmsgid, by simp [hown]⟩)
      · split
        · exact .fails (.inl rfl) (.inr ⟨hmsgid, by simp [hown]⟩)
        · exact .goes (.inr (by simp [hown])) nofun nofun rfl

end

/-! ## Requests and replies -/

/-- A mail waits. -/
def waits (m : MailCtx κ δ υ σ) : Bool := m.msgid ≠ 0

/-- The mail with some id waits. -/
def waiting (id : ℕ) (m : MailCtx κ δ υ σ) : Bool := waits m && m.idx = id

/-- The requests that have been sent for some mails, and the replies to them. -/
structure Ledger (s : Loop κ δ υ σ γ ρ) (mails : List (MailCtx κ δ υ σ)) : Prop where
  pos : ∀ m ∈ mails, m.idx ≠ 0
  ids : ∀ m ∈ mails, m.msgid ≠ 0 → m.msgid = m.idx
  /-- A mail that waits has a request without a reply, and no other mail has one. -/
  counts : ∀ id, s.requests.count id = s.taken.count id + mails.countP (waiting id)
  unread : ∀ id, s.taken.count id + (s.unread []).count id ≤ s.requests.count id

theorem Ledger.perm {s : Loop κ δ υ σ γ ρ} {mails mails' : List (MailCtx κ δ υ σ)}
    (h : Ledger s mails) (hperm : mails'.Perm mails) : Ledger s mails' where
  pos m hm := h.pos m (hperm.mem_iff.mp hm)
  ids m hm := h.ids m (hperm.mem_iff.mp hm)
  counts id := by rw [h.counts id, hperm.countP_eq]
  unread := h.unread

section

variable {ch : Char} {this : MailCtx κ δ υ σ} {msgp : Option (Msg ρ)} {ran : Ran κ δ υ σ γ}

variable (this msgp) in
theorem takes_eq_false (h : this.msgid = 0 ∨ ownMsg this msgp = none) :
    takes this msgp = false := by
  rcases h with h | h <;> simp [takes, h]

/-- What is changed by a call in which nothing is sent or taken. -/
theorem called_idle (s : Loop κ δ υ σ γ ρ) (htakes : takes this msgp = false)
    (hasks : asks this ran.mctx = false) :
    s.called this msgp ran = { s with world := ran.world } := by
  simp [Loop.called, htakes, hasks]

/-- A call keeps the accounts, for a mail that stays. -/
theorem Ledger.stays {s : Loop κ δ υ σ γ ρ} {rest : List (MailCtx κ δ υ σ)}
    (h : Ledger s (this :: rest)) (hout : Outcome ch this msgp ran)
    (hidx : ran.mctx.idx = this.idx) (herror : ran.ret ≠ .mailError) (hfatal : ran.ret ≠ .fatal)
    (hstays : ran.ret ≠ .mailDone) (hhand : takes this msgp = true → s.hand = some this.idx) :
    Ledger (s.called this msgp ran) (ran.mctx :: rest) := by
  have hpos : ∀ m ∈ ran.mctx :: rest, m.idx ≠ 0 := by
    rintro m (_ | ⟨_, hm⟩)
    · rw [hidx]
      exact h.pos this (.head _)
    · exact h.pos m (.tail _ hm)
  have hids : (ran.mctx.msgid ≠ 0 → ran.mctx.msgid = ran.mctx.idx) →
      ∀ m ∈ ran.mctx :: rest, m.msgid ≠ 0 → m.msgid = m.idx := by
    rintro hown m (_ | ⟨_, hm⟩)
    · exact hown
    · exact h.ids m (.tail _ hm)
  cases hout with
  | fails hret => exact absurd hret (not_or.mpr ⟨herror, hfatal⟩)
  | leaves _ hret => exact absurd hret hstays
  | waits hmsgid hown hret hmctx =>
    have hasks : asks this ran.mctx = false := by simp [asks, hmsgid]
    rw [called_idle s (takes_eq_false this msgp (.inr hown)) hasks]
    refine ⟨hpos, hids ?_, fun id => ?_, h.unread⟩
    · rw [hmctx]
      exact h.ids this (.head _)
    · have hcount := h.counts id
      rw [List.countP_cons] at hcount ⊢
      rw [hmctx]
      exact hcount
  | asks hmsgid hret hsent =>
    have hne : this.idx ≠ 0 := h.pos this (.head _)
    have hasks : asks this ran.mctx = true := by simp [asks, hmsgid, hsent, hne]
    have htakes := takes_eq_false this msgp (.inl hmsgid)
    refine ⟨hpos, hids fun _ => hsent.trans hidx.symm, fun id => ?_, fun id => ?_⟩
    · have hcount := h.counts id
      simp only [Loop.called, hasks, htakes, if_true, Bool.false_eq_true, if_false,
        List.count_append, List.count_singleton, List.countP_cons] at hcount ⊢
      have hthis : waiting id this = false := by simp [waiting, waits, hmsgid]
      have hran : waiting id ran.mctx = (this.idx == id) := by
        simp [waiting, waits, hsent, hne, hidx, beq_eq_decide]
      rw [hthis] at hcount
      rw [hran, hcount]
      simp
      omega
    · have hle := h.unread id
      simp only [Loop.called, Loop.unread, hasks, htakes, if_true, Bool.false_eq_true, if_false,
        List.count_append] at hle ⊢
      omega
  | goes htook hblocked hdone hfree =>
    have hasks : asks this ran.mctx = false := by simp [asks, hfree]
    have hran : ∀ id, waiting id ran.mctx = false := fun id => by simp [waiting, waits, hfree]
    by_cases hmsgid : this.msgid = 0
    · rw [called_idle s (takes_eq_false this msgp (.inl hmsgid)) hasks]
      refine ⟨hpos, hids fun hne => absurd hfree hne, fun id => ?_, h.unread⟩
      have hcount := h.counts id
      have hthis : waiting id this = false := by simp [waiting, waits, hmsgid]
      rw [List.countP_cons, hthis] at hcount
      rw [List.countP_cons, hran]
      exact hcount
    · have hown : ownMsg this msgp ≠ none := htook.resolve_left hmsgid
      have htakes : takes this msgp = true := by
        simp [takes, hmsgid, Option.isSome_iff_ne_none, hown]
      have hs := hhand htakes
      refine ⟨hpos, hids fun hne => absurd hfree hne, fun id => ?_, fun id => ?_⟩
      · have hcount := h.counts id
        have hthis : waiting id this = (this.idx == id) := by
          simp [waiting, waits, hmsgid, beq_eq_decide]
        simp only [Loop.called, hasks, htakes, if_true, Bool.false_eq_true, if_false,
          List.count_append, List.count_singleton, List.countP_cons, hran, hthis] at hcount ⊢
        omega
      · have hle := h.unread id
        simp only [Loop.called, Loop.unread, hasks, htakes, hs, if_true, Bool.false_eq_true,
          if_false, List.count_append, Option.toList_some, Option.toList_none,
          List.count_singleton, List.count_nil] at hle ⊢
        omega

variable (msgp) in
/-- A call keeps the accounts, for a mail that leaves. -/
theorem Ledger.leaves {s : Loop κ δ υ σ γ ρ} {rest : List (MailCtx κ δ υ σ)}
    (h : Ledger s (this :: rest)) (hmsgid : this.msgid = 0) (hfree : ran.mctx.msgid = 0) :
    Ledger (s.called this msgp ran) rest := by
  rw [called_idle s (takes_eq_false this msgp (.inl hmsgid)) (by simp [asks, hfree])]
  refine ⟨fun m hm => h.pos m (.tail _ hm), fun m hm => h.ids m (.tail _ hm), fun id => ?_,
    h.unread⟩
  have hcount := h.counts id
  have hthis : waiting id this = false := by simp [waiting, waits, hmsgid]
  rw [List.countP_cons, hthis] at hcount
  exact hcount

end

end Fdm.Account
