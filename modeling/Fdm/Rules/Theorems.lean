import Fdm.Rules.Invariant

/-!
# The rules are followed

However often a mail has to wait for the parent, and whatever other messages come in while it
waits, the calls of `mail_match` and `mail_deliver` run the match functions and start the
actions that an evaluation of the rules runs and starts, in its order, and end as it ends.
-/

namespace Fdm.Rules

open Lib.Schedule

variable {κ δ υ σ γ ρ : Type} {env : Env κ δ υ σ γ ρ} {conf : Conf κ δ}

/-! ## An evaluation only adds events -/

/-- What comes of a part of an evaluation keeps the events from before it. -/
def Extends {α : Type} (s : Sit κ δ υ σ γ ρ) (o : Out κ δ υ σ γ ρ α) : Prop :=
  s.events <+: o.2.events

/-- Two parts of an evaluation add to the events one after the other. -/
theorem Extends.andThen {α β : Type} {s : Sit κ δ υ σ γ ρ} {o : Out κ δ υ σ γ ρ α}
    {f : α → Sit κ δ υ σ γ ρ → Out κ δ υ σ γ ρ β} (h : Extends s o)
    (hf : ∀ a s', Extends s' (f a s')) : Extends s (o.andThen f) := by
  obtain ⟨res, s'⟩ := o
  cases res with
  | error halt => exact h
  | ok a => exact h.trans (hf a s')

theorem Extends.of_events {α : Type} {s s' : Sit κ δ υ σ γ ρ} {o : Out κ δ υ σ γ ρ α}
    (ho : Extends s' o) (h : s.events <+: s'.events) : Extends s o := h.trans ho

/-- A reply adds no event by itself. -/
theorem extends_reply (ch : Char) (s : Sit κ δ υ σ γ ρ) : Extends s (reply ch s) := by
  unfold reply
  dsimp only
  split <;> exact List.prefix_rfl

theorem extends_evalReply (msg : Msg ρ) (s : Sit κ δ υ σ γ ρ) :
    Extends s (evalReply env msg s) := by
  unfold evalReply
  split
  · exact List.prefix_rfl
  · dsimp only
    split <;> exact List.prefix_rfl

theorem extends_evalCond (cond : Cond κ) (s : Sit κ δ υ σ γ ρ) :
    Extends s (evalCond env conf cond s) := by
  unfold evalCond
  rcases matchItem env conf cond s.matched s.mail s.world with ⟨res, m, world⟩
  have hadd : s.events <+: s.events ++ [.tried cond] := List.prefix_append _ _
  cases res with
  | matchError => exact hadd
  | matchTrue => exact hadd
  | matchFalse => exact hadd
  | matchParent =>
    exact Extends.of_events ((extends_reply ' ' _).andThen fun msg s' =>
      extends_evalReply msg s') hadd

/-- An expression, by induction on its parts. -/
theorem extends_evalItems (eis : List (Expritem κ)) (result : Bool) (s : Sit κ δ υ σ γ ρ) :
    Extends s (evalItems env conf eis result s) := by
  induction eis generalizing result s with
  | nil => exact List.prefix_rfl
  | cons ei eis ih =>
    rw [evalItems_cons]
    split
    · exact ih result (s.wrap ' ')
    · exact Extends.andThen (s := s) (extends_evalCond ei.cond (s.wrap ' ')) fun this s' => ih _ s'

theorem extends_evalDone (dctx : DeliverCtx δ υ) (msg : Msg ρ) (s : Sit κ δ υ σ γ ρ) :
    Extends s (evalDone env dctx msg s) := by
  unfold evalDone
  split <;> exact List.prefix_rfl

theorem extends_evalAction (ruleidx : ℕ) (dctx : DeliverCtx δ υ) (s : Sit κ δ υ σ γ ρ) :
    Extends s (evalAction env ruleidx dctx s) := by
  have hadd : s.events <+: s.events ++ [.started dctx] := List.prefix_append _ _
  unfold evalAction
  dsimp only
  split
  · exact hadd
  · exact hadd
  · exact Extends.of_events ((extends_reply '\n' _).andThen fun msg s' =>
      extends_evalDone dctx msg s') hadd

/-- The actions of a rule, by induction on their queue. -/
theorem extends_evalActions (ruleidx : ℕ) (q : List (DeliverCtx δ υ)) (s : Sit κ δ υ σ γ ρ) :
    Extends s (evalActions env ruleidx q s) := by
  induction q generalizing s with
  | nil => exact List.prefix_rfl
  | cons dctx q ih => exact (extends_evalAction ruleidx dctx s).andThen fun _ s' => ih s'

theorem extends_evalStop (stop : Bool) (s : Sit κ δ υ σ γ ρ) : Extends s (evalStop stop s) := by
  unfold evalStop
  split <;> exact List.prefix_rfl

theorem extends_evalLeaf (r : Rule κ δ) (s : Sit κ δ υ σ γ ρ) :
    Extends s (evalLeaf env conf r s) := by
  unfold evalLeaf
  dsimp only
  split
  · exact List.prefix_rfl
  · split
    · exact Extends.andThen (s := s) (extends_evalActions r.idx _ { s with matched := true })
        fun _ s' => extends_evalStop r.stop s'
    · exact extends_evalStop r.stop { s with matched := true }

mutual

/-- A rule with those below it. -/
theorem extends_evalRule (r : Rule κ δ) (s : Sit κ δ υ σ γ ρ) :
    Extends s (evalRule env conf r s) := by
  match r with
  | .mk idx first rest users cont lambda actions rules =>
    rw [evalRule]
    refine (extends_evalItems (first :: rest) false s).andThen fun result s' => ?_
    split
    · match rules with
      | [] => exact extends_evalLeaf _ s'
      | r :: rs => exact extends_evalRules (r :: rs) s'
    · exact List.prefix_rfl

/-- Rules one after another. -/
theorem extends_evalRules (rs : List (Rule κ δ)) (s : Sit κ δ υ σ γ ρ) :
    Extends s (evalRules env conf rs s) := by
  match rs with
  | [] => exact List.prefix_rfl
  | r :: rs => exact (extends_evalRule r s).andThen fun _ s' => extends_evalRules rs s'

end

/-- The rules around. -/
theorem extends_evalStack (stack : List (List (Rule κ δ))) (s : Sit κ δ υ σ γ ρ) :
    Extends s (evalStack env conf stack s) := by
  induction stack generalizing s with
  | nil => exact List.prefix_rfl
  | cons rs stack ih => exact (extends_evalRules rs s).andThen fun _ s' => ih s'

theorem extends_evalBody (r : Rule κ δ) (result : Bool) (s : Sit κ δ υ σ γ ρ) :
    Extends s (evalBody env conf r result s) := by
  unfold evalBody
  split
  · split
    · exact extends_evalLeaf r s
    · exact extends_evalRules _ s
  · exact List.prefix_rfl

theorem extends_evalFrom (mctx : MailCtx κ δ υ σ) (r : Rule κ δ) (eis : List (Expritem κ))
    (result : Bool) (s : Sit κ δ υ σ γ ρ) : Extends s (evalFrom env conf mctx r eis result s) :=
  (extends_evalItems eis result s).andThen fun result s' =>
    (extends_evalBody r result s').andThen fun _ s' => extends_evalStack _ s'

theorem extends_evalMatchq (mctx : MailCtx κ δ υ σ) (s : Sit κ δ υ σ γ ρ) :
    Extends s (evalMatchq env conf mctx s) := by
  unfold evalMatchq
  split
  · split
    · exact (extends_reply ' ' s).andThen fun msg s' =>
        (extends_evalReply msg s').andThen fun this s' => extends_evalFrom mctx _ _ _ s'
    · exact List.prefix_rfl
  · split
    · exact List.prefix_rfl
    · split
      · exact List.prefix_rfl
      · split <;> exact extends_evalFrom mctx _ _ _ s

theorem extends_evalDeliverq (mctx : MailCtx κ δ υ σ) (s : Sit κ δ υ σ γ ρ) :
    Extends s (evalDeliverq env conf mctx s) := by
  refine Extends.andThen ?_ fun _ s' => ?_
  · split
    · split
      · exact (extends_reply '\n' s).andThen fun msg s' =>
          (extends_evalDone _ msg s').andThen fun _ s' => extends_evalActions _ _ s'
      · exact List.prefix_rfl
    · exact extends_evalActions _ _ s
  · unfold evalBehind
    split
    · exact List.prefix_rfl
    · exact extends_evalStack _ s'

/-- The end of an evaluation is no event. -/
theorem events_evalEnd (o : Out κ δ υ σ γ ρ Unit) : (evalEnd conf o).2.events = o.2.events := by
  obtain ⟨res, s⟩ := o
  cases res <;> rfl

/-- What has been done is part of what is done in the end. -/
theorem events_remaining (d : Drive κ δ υ σ γ ρ) (replies : List (Msg ρ)) :
    d.events <+: (d.remaining env conf replies).2.events := by
  unfold Drive.remaining MailCtx.remaining
  split
  · rw [events_evalEnd]
    exact extends_evalMatchq _ (d.mctx.sit d.world replies d.events)
  · rw [events_evalEnd]
    exact extends_evalDeliverq _ (d.mctx.sit d.world replies d.events)
  · exact List.prefix_rfl

/-! ## Runs -/

/-- A mail after so many calls. -/
def calls (env : Env κ δ υ σ γ ρ) (conf : Conf κ δ) (idx : ℕ) (m : MailData σ) (world : γ)
    (ins : ℕ → Option (Msg ρ)) (n : ℕ) : Drive κ δ υ σ γ ρ :=
  runs (Drive.step env conf) ins (Drive.start conf idx m world) n

/-- A mail that waits for the parent. -/
def Drive.Waits (d : Drive κ δ υ σ γ ρ) : Prop :=
  (∀ h, d.place ≠ .finished h) ∧ d.mctx.msgid ≠ 0

/-- Whenever the mail waits, a message for it comes in at some time. -/
def Answered (env : Env κ δ υ σ γ ρ) (conf : Conf κ δ) (idx : ℕ) (m : MailData σ) (world : γ)
    (ins : ℕ → Option (Msg ρ)) : Prop :=
  ∀ n, (calls env conf idx m world ins n).Waits →
    ∃ k msg, n ≤ k ∧ ins k = some msg ∧ msg.id = idx

/-- The state of a mail between calls. -/
def Drive.Ok (idx : ℕ) (d : Drive κ δ υ σ γ ρ) : Prop :=
  Placed d.mctx d.place ∧ d.mctx.idx = idx

/-- The rank of a mail. -/
def Drive.rank (d : Drive κ δ υ σ γ ρ) : ℕ ×ₗ ℕ := d.mctx.rank d.place

/-- A call for nothing. -/
def Idle (d : Drive κ δ υ σ γ ρ) (msg : Option (Msg ρ)) : Prop :=
  d.mctx.msgid ≠ 0 ∧ ownMsg d.mctx msg = none

variable (env conf) in
/-- A call for nothing leaves a mail waiting. -/
theorem step_idle {d : Drive κ δ υ σ γ ρ} {msg : Option (Msg ρ)} (h : Idle d msg) :
    (d.step env conf msg).mctx.msgid = d.mctx.msgid ∧
      (d.step env conf msg).place = d.place ∧ (d.step env conf msg).rank = d.rank := by
  obtain ⟨hmsgid, hown⟩ := h
  unfold Drive.step
  split
  · rename_i hplace
    simp [Drive.after, mailMatch, hmsgid, hown, placeAfter, hplace, Drive.rank, MailCtx.rank,
      MailCtx.work, MailCtx.itemsWork]
  · rename_i hplace
    simp [Drive.after, mailDeliver, hmsgid, hown, placeAfter, hplace, Drive.rank, MailCtx.rank,
      MailCtx.work, MailCtx.itemsWork, MailCtx.actionsWork]
  · exact ⟨rfl, rfl, rfl⟩

/-- Wrapping the lines of a mail does not move it. -/
theorem placed_wrap {mctx : MailCtx κ δ υ σ} {place : Place} (h : Placed mctx place) (ch : Char) :
    Placed (mctx.wrap ch) place where
  idx := h.idx
  outermost := h.outermost
  matchq hp := by
    obtain ⟨hq, hrule, hasked⟩ := h.matchq hp
    exact ⟨hq, hrule, fun hne => ⟨(hasked hne).1, (hasked hne).2.msgid, (hasked hne).2.rule,
      (hasked hne).2.item⟩⟩
  deliverq hp := h.deliverq hp

variable (env conf) in
/-- A call keeps the state of a mail in order; and unless it is for nothing or the mail is
finished, it lowers the rank. -/
theorem step_ok {idx : ℕ} {d : Drive κ δ υ σ γ ρ} (h : d.Ok idx) (msg : Option (Msg ρ)) :
    (d.step env conf msg).Ok idx ∧
      (¬ Idle d msg → (∃ h, d.place = .finished h) ∨ (d.step env conf msg).rank < d.rank) := by
  obtain ⟨hplaced, hidx⟩ := h
  have hown (hidle : ¬ Idle d msg) (hne : d.mctx.msgid ≠ 0) : ownMsg d.mctx msg ≠ none :=
    fun hnone => hidle ⟨hne, hnone⟩
  unfold Drive.step Drive.rank
  cases hplace : d.place with
  | finished halt => exact ⟨⟨hplaced, hidx⟩, fun _ => .inl ⟨halt, rfl⟩⟩
  | matchq =>
    rw [hplace] at hplaced
    refine ⟨⟨?_, (mailMatch_idx d.mctx d.world msg).trans hidx⟩, fun hidle => .inr ?_⟩
    · by_cases hidle : Idle d msg
      · simp only [Drive.after, mailMatch, hidle.1, hidle.2, wrap_msgid, ne_eq,
          not_false_eq_true, if_true, ownMsg_wrap, placeAfter, hplace]
        exact placed_wrap hplaced ' '
      · simp only [Drive.after, hplace]
        exact (advances_mailMatch hplaced d.world msg (hown hidle)).1
    · simp only [Drive.after, hplace]
      exact (advances_mailMatch hplaced d.world msg (hown hidle)).2
  | deliverq =>
    rw [hplace] at hplaced
    refine ⟨⟨?_, (mailDeliver_idx d.mctx d.world msg).trans hidx⟩, fun hidle => .inr ?_⟩
    · by_cases hidle : Idle d msg
      · simp only [Drive.after, mailDeliver, hidle.1, hidle.2, wrap_msgid, ne_eq,
          not_false_eq_true, if_true, ownMsg_wrap, placeAfter, hplace]
        exact placed_wrap hplaced '\n'
      · simp only [Drive.after, hplace]
        exact (advances_mailDeliver hplaced d.world msg (hown hidle)).1
    · simp only [Drive.after, hplace]
      exact (advances_mailDeliver hplaced d.world msg (hown hidle)).2

/-- A call leaves what the rest of an evaluation comes to. -/
theorem step_remaining {idx : ℕ} {d : Drive κ δ υ σ γ ρ} (h : d.Ok idx) (msg : Option (Msg ρ))
    (hnot : ∀ h, d.place ≠ .finished h) (replies : List (Msg ρ)) :
    (d.step env conf msg).remaining env conf replies =
      d.remaining env conf (taken d.mctx msg ++ replies) := by
  unfold Drive.step Drive.remaining
  cases hplace : d.place with
  | finished halt => exact absurd hplace (hnot halt)
  | matchq =>
    have hstep := remaining_mailMatch env conf (hplace ▸ h.1) d.world msg replies d.events
    simpa only [Ran.remaining, Drive.after, hplace] using hstep
  | deliverq =>
    have hstep := remaining_mailDeliver env conf (hplace ▸ h.1) d.world msg replies d.events
    simpa only [Ran.remaining, Drive.after, hplace] using hstep

/-! ## Whole runs -/

theorem andThen_unit (o : Out κ δ υ σ γ ρ Unit) : (o.andThen fun _ s => (.ok (), s)) = o := by
  obtain ⟨res, s⟩ := o
  cases res <;> rfl

/-- What holds of a mail after any number of calls: with whatever messages come next, the rest
of its evaluation is the evaluation of all of the rules with the messages it has had before
them. -/
def Drive.Follows (env : Env κ δ υ σ γ ρ) (conf : Conf κ δ) (idx : ℕ) (m : MailData σ)
    (world : γ) (d : Drive κ δ υ σ γ ρ) : Prop :=
  d.Ok idx ∧ ∀ more, d.remaining env conf more = evalRuleset env conf m world (d.consumed ++ more)

/-- A mail that has not been called follows its rules. -/
theorem start_follows {idx : ℕ} (hidx : idx ≠ 0) (m : MailData σ) (world : γ) :
    (Drive.start conf idx m world).Follows env conf idx m world := by
  refine ⟨⟨placed_matchq _ hidx (fun _ => rfl) rfl rfl fun hne => absurd rfl hne, rfl⟩,
    fun more => ?_⟩
  have hbehind : ((evalRules env conf conf.rules
      ((newCtx conf idx m).sit world more [])).andThen fun _ s => (.ok (), s)) =
      evalRules env conf conf.rules { mail := m, world := world, replies := more } :=
    andThen_unit _
  calc (Drive.start conf idx m world).remaining env conf more
      = evalEnd conf (evalBehind env conf (newCtx conf idx m)
          ((newCtx conf idx m).sit world more [])) :=
        remaining_matchq (newCtx conf idx m) rfl rfl (fun _ => rfl) _
    _ = evalRuleset env conf m world more := congrArg (evalEnd conf) hbehind

/-- One call follows them further. -/
theorem step_follows {idx : ℕ} {m : MailData σ} {world : γ} {d : Drive κ δ υ σ γ ρ}
    (h : d.Follows env conf idx m world) (msg : Option (Msg ρ)) :
    (d.step env conf msg).Follows env conf idx m world := by
  refine ⟨(step_ok env conf h.1 msg).1, fun more => ?_⟩
  by_cases hfin : ∃ halt, d.place = .finished halt
  · obtain ⟨halt, hfin⟩ := hfin
    have hstep : d.step env conf msg = d := by simp [Drive.step, hfin]
    rw [hstep]
    exact h.2 more
  · have hconsumed : (d.step env conf msg).consumed = d.consumed ++ taken d.mctx msg := by
      unfold Drive.step
      split
      · rfl
      · rfl
      · exact absurd ⟨_, ‹_›⟩ hfin
    rw [step_remaining h.1 msg (fun halt hplace => hfin ⟨halt, hplace⟩), h.2, hconsumed,
      List.append_assoc]

variable {idx : ℕ} {m : MailData σ} {world : γ} {ins : ℕ → Option (Msg ρ)}

variable (env conf m world ins) in
/-- By induction over the calls, a mail follows its rules. -/
theorem calls_follows (hidx : idx ≠ 0) (n : ℕ) :
    (calls env conf idx m world ins n).Follows env conf idx m world :=
  runs_invariant (start_follows hidx m world) (fun _ msg h => step_follows h msg) n

/-- A call never raises the rank. -/
theorem step_rank_le {d : Drive κ δ υ σ γ ρ} (h : d.Ok idx) (msg : Option (Msg ρ)) :
    (d.step env conf msg).rank ≤ d.rank := by
  by_cases hidle : Idle d msg
  · exact (step_idle env conf hidle).2.2.le
  · rcases (step_ok env conf h msg).2 hidle with ⟨halt, hfin⟩ | hlt
    · simp [Drive.step, hfin]
    · exact hlt.le

/-- The message of a waiting mail gets it on. -/
theorem not_idle {d : Drive κ δ υ σ γ ρ} (h : d.Ok idx) (hwaits : d.Waits) {msg : Msg ρ}
    (hmsg : msg.id = idx) : ¬ Idle d (some msg) := by
  rintro ⟨hne, hnone⟩
  have hid : d.mctx.msgid = d.mctx.idx := by
    cases hplace : d.place with
    | matchq => exact ((h.1.matchq hplace).2.2 hne).2.msgid
    | deliverq => exact ((h.1.deliverq hplace).2 hne).1
    | finished halt => exact absurd hplace (hwaits.1 halt)
  simp [ownMsg, hid, h.2, hmsg] at hnone

/-- A mail that is not finished gets on with a call that is not for nothing. -/
theorem calls_advances (hidx : idx ≠ 0) {n : ℕ}
    (hnot : ∀ h, (calls env conf idx m world ins n).place ≠ .finished h)
    (hidle : ¬ Idle (calls env conf idx m world ins n) (ins n)) :
    (calls env conf idx m world ins (n + 1)).rank < (calls env conf idx m world ins n).rank := by
  have hok := (calls_follows env conf m world ins hidx n).1
  rcases (step_ok env conf hok (ins n)).2 hidle with ⟨halt, hfin⟩ | hlt
  · exact absurd hfin (hnot halt)
  · exact hlt

/-- A mail that waits until its message comes in gets on at some time. -/
theorem waits_advances (hidx : idx ≠ 0) {msg : Msg ρ} (hmsg : msg.id = idx) (t : ℕ) :
    ∀ n, (calls env conf idx m world ins n).Waits → ins (n + t) = some msg →
      ∃ k, n ≤ k ∧ (calls env conf idx m world ins (k + 1)).rank <
        (calls env conf idx m world ins k).rank := by
  induction t with
  | zero =>
    intro n hwaits hin
    have hok := (calls_follows env conf m world ins hidx n).1
    refine ⟨n, le_rfl, calls_advances hidx hwaits.1 ?_⟩
    rw [show ins n = some msg from hin]
    exact not_idle hok hwaits hmsg
  | succ t ih =>
    intro n hwaits hin
    by_cases hidle : Idle (calls env conf idx m world ins n) (ins n)
    · obtain ⟨hmsgid, hplace, -⟩ := step_idle env conf hidle
      have hnext : (calls env conf idx m world ins (n + 1)).Waits :=
        ⟨fun h => hplace.symm ▸ hwaits.1 h, hmsgid.symm ▸ hwaits.2⟩
      obtain ⟨k, hk, hlt⟩ := ih (n + 1) hnext (by rw [Nat.succ_add]; exact hin)
      exact ⟨k, Nat.le_of_succ_le hk, hlt⟩
    · exact ⟨n, le_rfl, calls_advances hidx hwaits.1 hidle⟩

/-- A mail whose messages all come in is finished in the end. -/
theorem calls_finish (hidx : idx ≠ 0) (hanswered : Answered env conf idx m world ins) :
    ∃ n h, (calls env conf idx m world ins n).place = .finished h := by
  refine exists_final (fun d => ∃ h, Drive.place d = .finished h) Drive.rank
    (fun n => step_rank_le (calls_follows env conf m world ins hidx n).1 (ins n)) fun n => ?_
  by_cases hfin : ∃ h, (calls env conf idx m world ins n).place = .finished h
  · exact ⟨n, le_rfl, .inl hfin⟩
  · have hnot : ∀ h, (calls env conf idx m world ins n).place ≠ .finished h :=
      fun h hplace => hfin ⟨h, hplace⟩
    by_cases hwaits : (calls env conf idx m world ins n).Waits
    · obtain ⟨k, msg, hk, hin, hmsg⟩ := hanswered n hwaits
      obtain ⟨j, hj, hlt⟩ := waits_advances hidx hmsg (k - n) n hwaits
        (by rw [Nat.add_sub_cancel' hk]; exact hin)
      exact ⟨j, hj, .inr hlt⟩
    · have hidle : ¬ Idle (calls env conf idx m world ins n) (ins n) :=
        fun hidle => hwaits ⟨hnot, hidle.1⟩
      exact ⟨n, le_rfl, .inr (calls_advances hidx hnot hidle)⟩

/-- The calls of `mail_match` and `mail_deliver` for a mail follow the rules. At any time they
have tried the conditions and started the actions of an evaluation up to there. When the mail is
finished they have done just that evaluation, with the messages that were for it as the replies
of the parent, and have come to its end. And the mail is finished some time, unless a message it
waits for never comes in. -/
theorem calls_follow_rules (env : Env κ δ υ σ γ ρ) (conf : Conf κ δ) {idx : ℕ} (hidx : idx ≠ 0)
    (m : MailData σ) (world : γ) (ins : ℕ → Option (Msg ρ)) :
    (∀ n more, (calls env conf idx m world ins n).events <+:
      (evalRuleset env conf m world
        ((calls env conf idx m world ins n).consumed ++ more)).2.events) ∧
    (∀ n h, (calls env conf idx m world ins n).place = .finished h →
      evalRuleset env conf m world (calls env conf idx m world ins n).consumed =
        (h, (calls env conf idx m world ins n).mctx.sit
          (calls env conf idx m world ins n).world [] (calls env conf idx m world ins n).events)) ∧
    (Answered env conf idx m world ins →
      ∃ n h, (calls env conf idx m world ins n).place = .finished h) := by
  refine ⟨fun n more => ?_, fun n h hplace => ?_, calls_finish hidx⟩
  · rw [← (calls_follows env conf m world ins hidx n).2 more]
    exact events_remaining _ more
  · have hfollows := (calls_follows env conf m world ins hidx n).2 []
    rw [List.append_nil] at hfollows
    rw [← hfollows]
    simp only [Drive.remaining, MailCtx.remaining, hplace]

/-- Functions that do nothing. -/
def idleEnv : Env Unit Unit Unit Unit Unit Unit where
  tryMatch _ _ m world := (some true, m, world)
  deliver _ _ m world := (true, m, world)
  replacestr s _ := s
  userLookup _ := some ()
  actionMatch s name := s = name
  addTag _ _ tags := tags
  updateTags _ tags := tags
  resetTags tags := tags
  receiveTags _ tags := tags
  receiveMail _ m := some m

/-- A rule with a command and an action that runs as its user. -/
def askingConf : Conf Unit Unit where
  rules := [.mk 0 ⟨.command none (), .opNone, false⟩ [] none false none [['k']] []]
  actionList := [⟨['k'], none, [.deliver 0 .asuser ()]⟩]
  defUser := ['u']

/-- The parent has something for the mail at every call. -/
def allAnswered (n : ℕ) : Option (Msg Unit) :=
  some { id := 1, error := if n < 2 then 1 else 0, body := () }

/-- A rule with a command, which the parent answers. -/
theorem calls_follow_rules_asking :
    1 ≠ 0 ∧ Answered idleEnv askingConf 1 { data := [], rest := () } () allAnswered ∧
      (calls idleEnv askingConf 1 { data := [], rest := () } () allAnswered 6).place =
        .finished .stopped ∧
      (evalRuleset idleEnv askingConf { data := [], rest := () } ()
        (calls idleEnv askingConf 1 { data := [], rest := () } () allAnswered 6).consumed).1 =
          .stopped := by
  have hplace : (calls idleEnv askingConf 1 { data := [], rest := () } () allAnswered 6).place =
      .finished .stopped := by decide
  have hrules := calls_follow_rules idleEnv askingConf (by decide : 1 ≠ 0)
    { data := [], rest := () } () allAnswered
  refine ⟨by decide, fun n _ => ⟨n, _, le_rfl, rfl, rfl⟩, hplace, ?_⟩
  rw [hrules.2.1 6 .stopped hplace]

end Fdm.Rules
