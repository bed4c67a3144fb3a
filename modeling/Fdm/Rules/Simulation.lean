import Fdm.Rules.Eval
import Fdm.Lib.Schedule
import Mathlib.Algebra.GroupWithZero.Nat
import Mathlib.Data.Prod.Lex

/-!
# Calls and evaluation

A mail on its way through the two queues: `fetch_match` and `fetch_deliver` call `mail_match`
or `mail_deliver` again and again, each time with the message that has just come in, if any.
Whatever calls have been made, what is left to do is an evaluation (`Drive.remaining`), and a
call leaves the result of that evaluation as it is.
-/

namespace Fdm.Rules

variable {κ δ υ σ γ ρ : Type}

/-! ## The calls -/

/-- The queue a mail is on, until it is dequeued or everything is given up. -/
inductive Place
  | matchq
  | deliverq
  | finished (h : Halt)
deriving DecidableEq, Repr

/-- A mail, what has been done about it, and the messages that were for it. -/
structure Drive (κ δ υ σ γ ρ : Type) where
  mctx : MailCtx κ δ υ σ
  world : γ
  place : Place := .matchq
  events : List (Event κ δ υ) := []
  consumed : List (Msg ρ) := []

/-- The message of a call, if the mail waits for it. -/
def taken (mctx : MailCtx κ δ υ σ) (msg : Option (Msg ρ)) : List (Msg ρ) :=
  if mctx.msgid ≠ 0 then (ownMsg mctx msg).toList else []

/-- Where a call leaves the mail. -/
def placeAfter (place : Place) (ret : MailRet) (done : Bool) : Place :=
  match ret with
  | .mailDeliver => .deliverq
  | .mailMatch => .matchq
  | .mailDone => .finished (if done then .stopped else .unmatched)
  | .mailError => .finished .error
  | .fatal => .finished .fatal
  | _ => place

/-- A call and what comes of it. -/
def Drive.after (d : Drive κ δ υ σ γ ρ) (msg : Option (Msg ρ)) (ran : Ran κ δ υ σ γ) :
    Drive κ δ υ σ γ ρ where
  mctx := ran.mctx
  world := ran.world
  place := placeAfter d.place ran.ret ran.mctx.done
  events := d.events ++ ran.events
  consumed := d.consumed ++ taken d.mctx msg

section

variable (env : Env κ δ υ σ γ ρ) (conf : Conf κ δ)

/-- The call that `fetch_match` or `fetch_deliver` makes. -/
def Drive.step (d : Drive κ δ υ σ γ ρ) (msg : Option (Msg ρ)) : Drive κ δ υ σ γ ρ :=
  match d.place with
  | .matchq => d.after msg (mailMatch env conf d.mctx d.world msg)
  | .deliverq => d.after msg (mailDeliver env d.mctx d.world msg)
  | .finished _ => d

/-- A mail that has just been put on the match queue. -/
def Drive.start (idx : ℕ) (m : MailData σ) (world : γ) : Drive κ δ υ σ γ ρ :=
  { mctx := newCtx conf idx m, world := world }

/-! ## What is left to do -/

/-- The rules of the stack, from its last one on. -/
def evalStack : List (List (Rule κ δ)) → Sit κ δ υ σ γ ρ → Out κ δ υ σ γ ρ Unit
  | [], s => (.ok (), s)
  | rs :: stack, s => (evalRules env conf rs s).andThen fun _ s => evalStack stack s

/-- A rule behind its expression. -/
def evalBody (r : Rule κ δ) (result : Bool) (s : Sit κ δ υ σ γ ρ) : Out κ δ υ σ γ ρ Unit :=
  if result then
    match r.rules with
    | [] => evalLeaf env conf r s
    | rs => evalRules env conf rs s
  else (.ok (), s)

/-- What comes behind the rules that are on the stack. -/
def MailCtx.outer (mctx : MailCtx κ δ υ σ) : List (List (Rule κ δ)) :=
  mctx.stack.map List.tail

/-- The rest of a rule, and the rules behind it. -/
def evalFrom (mctx : MailCtx κ δ υ σ) (r : Rule κ δ) (eis : List (Expritem κ)) (result : Bool)
    (s : Sit κ δ υ σ γ ρ) : Out κ δ υ σ γ ρ Unit :=
  (evalItems env conf eis result s).andThen fun result s =>
    (evalBody env conf r result s).andThen fun _ s =>
      evalStack env conf (mctx.rule.tail :: mctx.outer) s

/-- What is left to do for a mail on the match queue. -/
def evalMatchq (mctx : MailCtx κ δ υ σ) (s : Sit κ δ υ σ γ ρ) : Out κ δ υ σ γ ρ Unit :=
  if mctx.msgid ≠ 0 then
    match mctx.expritem, mctx.rule with
    | ei :: eis, r :: _ =>
      (reply ' ' s).andThen fun msg s => (evalReply env msg s).andThen fun this s =>
        evalFrom env conf mctx r eis (this != ei.inverted) s
    | _, _ => (.error .waiting, s.wrap ' ')
  else if mctx.done then (.error .stopped, s.wrap ' ')
  else
    match mctx.rule with
    | [] => (.ok (), s)
    | r :: _ =>
      if mctx.expritem = [] then evalFrom env conf mctx r r.expr false s
      else evalFrom env conf mctx r mctx.expritem mctx.result s

/-- What is left to do behind the actions of a rule. -/
def evalBehind (mctx : MailCtx κ δ υ σ) (s : Sit κ δ υ σ γ ρ) : Out κ δ υ σ γ ρ Unit :=
  if mctx.done then (.error .stopped, s.wrap ' ')
  else evalStack env conf (mctx.rule :: mctx.outer) s

/-- What is left to do for a mail on the delivery queue. -/
def evalDeliverq (mctx : MailCtx κ δ υ σ) (s : Sit κ δ υ σ γ ρ) : Out κ δ υ σ γ ρ Unit :=
  let actions : Out κ δ υ σ γ ρ Unit :=
    if mctx.msgid ≠ 0 then
      match mctx.dqueue with
      | dctx :: q =>
        (reply '\n' s).andThen fun msg s => (evalDone env dctx msg s).andThen fun _ s =>
          evalActions env mctx.ruleidx q s
      | [] => (.error .waiting, s.wrap '\n')
    else evalActions env mctx.ruleidx mctx.dqueue s
  actions.andThen fun _ s => evalBehind env conf mctx s

/-- A mail as an evaluation sees it, with the replies that are still to come. -/
def MailCtx.sit (mctx : MailCtx κ δ υ σ) (world : γ) (replies : List (Msg ρ))
    (events : List (Event κ δ υ)) : Sit κ δ υ σ γ ρ where
  mail := mctx.mail
  world := world
  matched := mctx.matched
  replies := replies
  events := events

/-- How the evaluation of a mail in some place ends. -/
def MailCtx.remaining (mctx : MailCtx κ δ υ σ) (place : Place) (s : Sit κ δ υ σ γ ρ) :
    Halt × Sit κ δ υ σ γ ρ :=
  match place with
  | .matchq => evalEnd conf (evalMatchq env conf mctx s)
  | .deliverq => evalEnd conf (evalDeliverq env conf mctx s)
  | .finished h => (h, s)

/-- How the evaluation of a mail ends behind a call. -/
def Ran.remaining (ran : Ran κ δ υ σ γ) (place : Place) (replies : List (Msg ρ))
    (events : List (Event κ δ υ)) : Halt × Sit κ δ υ σ γ ρ :=
  ran.mctx.remaining env conf (placeAfter place ran.ret ran.mctx.done)
    (ran.mctx.sit ran.world replies (events ++ ran.events))

/-- How the evaluation of a mail ends when it goes on with these replies. -/
def Drive.remaining (d : Drive κ δ υ σ γ ρ) (replies : List (Msg ρ)) :
    Halt × Sit κ δ υ σ γ ρ :=
  d.mctx.remaining env conf d.place (d.mctx.sit d.world replies d.events)

end

/-! ## The state between calls -/

/-- A mail that waits for an answer about a command. -/
structure Asked (mctx : MailCtx κ δ υ σ) : Prop where
  msgid : mctx.msgid = mctx.idx
  rule : mctx.rule ≠ []
  item : ∃ ei eis, mctx.expritem = ei :: eis ∧ skipped ei mctx.result = false

/-- The state of a mail in some place. -/
structure Placed (mctx : MailCtx κ δ υ σ) (place : Place) : Prop where
  idx : mctx.idx ≠ 0
  outermost : mctx.rule = [] → mctx.stack = []
  matchq : place = .matchq → mctx.dqueue = [] ∧ (mctx.expritem ≠ [] → mctx.rule ≠ []) ∧
    (mctx.msgid ≠ 0 → mctx.done = false ∧ Asked mctx)
  deliverq : place = .deliverq → mctx.expritem = [] ∧
    (mctx.msgid ≠ 0 → mctx.msgid = mctx.idx ∧ mctx.dqueue ≠ [])

/-! ## Lemmas about evaluation -/

section

variable {env : Env κ δ υ σ γ ρ} {conf : Conf κ δ}

@[simp] theorem andThen_ok {α β : Type} (a : α) (s : Sit κ δ υ σ γ ρ)
    (f : α → Sit κ δ υ σ γ ρ → Out κ δ υ σ γ ρ β) :
    Out.andThen ((.ok a, s) : Out κ δ υ σ γ ρ α) f = f a s := rfl

@[simp] theorem andThen_error {α β : Type} (h : Halt) (s : Sit κ δ υ σ γ ρ)
    (f : α → Sit κ δ υ σ γ ρ → Out κ δ υ σ γ ρ β) :
    Out.andThen ((.error h, s) : Out κ δ υ σ γ ρ α) f = (.error h, s) := rfl

theorem andThen_assoc {α β η : Type} (o : Out κ δ υ σ γ ρ α)
    (f : α → Sit κ δ υ σ γ ρ → Out κ δ υ σ γ ρ β) (g : β → Sit κ δ υ σ γ ρ → Out κ δ υ σ γ ρ η) :
    (o.andThen f).andThen g = o.andThen fun a s => (f a s).andThen g := by
  obtain ⟨res, s⟩ := o
  cases res <;> rfl

theorem setWrapped_setWrapped (ch : Char) (m : MailData σ) :
    (m.setWrapped ch).setWrapped ch = m.setWrapped ch := by
  unfold MailData.setWrapped
  split_ifs <;> simp_all

@[simp] theorem wrap_wrap (ch : Char) (s : Sit κ δ υ σ γ ρ) :
    (s.wrap ch).wrap ch = s.wrap ch := by
  simp [Sit.wrap, setWrapped_setWrapped]

@[simp] theorem reply_wrap (ch : Char) (s : Sit κ δ υ σ γ ρ) :
    reply ch (s.wrap ch) = reply ch s := by
  simp only [reply, wrap_wrap]

theorem evalRule_eq (r : Rule κ δ) (s : Sit κ δ υ σ γ ρ) :
    evalRule env conf r s =
      (evalItems env conf r.expr false s).andThen fun result s => evalBody env conf r result s := by
  obtain ⟨idx, first, rest, users, cont, lambda, actions, rules⟩ := r
  rw [evalRule]
  congr 1
  funext result s
  cases rules <;> rfl

theorem evalStack_cons (r : Rule κ δ) (rs : List (Rule κ δ)) (stack : List (List (Rule κ δ)))
    (s : Sit κ δ υ σ γ ρ) :
    evalStack env conf ((r :: rs) :: stack) s =
      (evalItems env conf r.expr false s).andThen fun result s =>
        (evalBody env conf r result s).andThen fun _ s => evalStack env conf (rs :: stack) s := by
  simp only [evalStack, evalRules, evalRule_eq, andThen_assoc]

@[simp] theorem evalStack_nil (stack : List (List (Rule κ δ))) (s : Sit κ δ υ σ γ ρ) :
    evalStack env conf ([] :: stack) s = evalStack env conf stack s := by
  simp [evalStack, evalRules]

/-- Moving up the stack leaves the rules that are still to come. -/
theorem evalStack_popRules (rule : List (Rule κ δ)) (stack : List (List (Rule κ δ)))
    (s : Sit κ δ υ σ γ ρ) :
    evalStack env conf ((popRules rule stack).1 :: (popRules rule stack).2.map List.tail) s =
      evalStack env conf (rule :: stack.map List.tail) s := by
  induction stack generalizing rule with
  | nil => cases rule <;> simp [popRules]
  | cons top stack ih =>
    cases rule with
    | nil =>
      rw [popRules, ih]
      simp
    | cons r rs => simp [popRules]

theorem popRules_outermost (rule : List (Rule κ δ)) (stack : List (List (Rule κ δ))) :
    (popRules rule stack).1 = [] → (popRules rule stack).2 = [] := by
  induction stack generalizing rule with
  | nil => cases rule <;> simp [popRules]
  | cons top stack ih =>
    cases rule with
    | nil => exact ih _
    | cons r rs => simp [popRules]

/-- One item, and the others. -/
theorem evalItems_cons (ei : Expritem κ) (eis : List (Expritem κ)) (result : Bool)
    (s : Sit κ δ υ σ γ ρ) :
    evalItems env conf (ei :: eis) result s =
      if skipped ei result then evalItems env conf eis result (s.wrap ' ')
      else (evalCond env conf ei.cond (s.wrap ' ')).andThen fun this s =>
        evalItems env conf eis (applyResult ei result this) s := by
  obtain ⟨cond, op, inverted⟩ := ei
  cases op <;> cases result <;> cases inverted <;>
    simp [evalItems, skipped, applyResult]

/-! ## The end of a call -/

/-- Between two rules. -/
theorem remaining_matchq (mctx : MailCtx κ δ υ σ) (hmsgid : mctx.msgid = 0)
    (hei : mctx.expritem = []) (hout : mctx.rule = [] → mctx.stack = [])
    (s : Sit κ δ υ σ γ ρ) :
    mctx.remaining env conf .matchq s = evalEnd conf (evalBehind env conf mctx s) := by
  simp only [MailCtx.remaining, evalMatchq, evalBehind, hmsgid, hei, ne_eq, not_true_eq_false,
    if_false, if_true]
  by_cases hdone : mctx.done = true
  · simp [hdone]
  · simp only [hdone]
    cases hrule : mctx.rule with
    | nil => simp [MailCtx.outer, hout hrule, evalStack, evalRules]
    | cons r rs => simp [evalFrom, evalStack_cons, hrule]

/-- At the head of the delivery queue. -/
theorem remaining_deliverq (mctx : MailCtx κ δ υ σ) (hmsgid : mctx.msgid = 0)
    (s : Sit κ δ υ σ γ ρ) :
    mctx.remaining env conf .deliverq s =
      evalEnd conf ((evalActions env mctx.ruleidx mctx.dqueue s).andThen fun _ s =>
        evalBehind env conf mctx s) := by
  simp [MailCtx.remaining, evalDeliverq, hmsgid]

/-- The rules behind a rule that has just ended. -/
theorem evalBehind_nextRule (mctx : MailCtx κ δ υ σ) (r : Rule κ δ) (s : Sit κ δ υ σ γ ρ) :
    evalBehind env conf (nextRule mctx r) s =
      if mctx.done then (.error .stopped, s.wrap ' ')
      else evalStack env conf (mctx.rule.tail :: mctx.outer) s := by
  unfold evalBehind
  by_cases hdone : mctx.done = true
  · simp [nextRule, hdone]
  · simp only [nextRule, hdone, MailCtx.outer]
    exact evalStack_popRules _ _ s

theorem remaining_nextRule (mctx : MailCtx κ δ υ σ) (hmsgid : mctx.msgid = 0)
    (hei : mctx.expritem = []) (r : Rule κ δ) (s : Sit κ δ υ σ γ ρ) :
    (nextRule mctx r).remaining env conf .matchq s =
      evalEnd conf (if mctx.done then (.error .stopped, s.wrap ' ')
        else evalStack env conf (mctx.rule.tail :: mctx.outer) s) := by
  rw [← evalBehind_nextRule]
  exact remaining_matchq (nextRule mctx r) hmsgid hei (popRules_outermost _ _) s

/-- What is left to do behind a rule with nested rules that matched. -/
theorem remaining_nested (mctx : MailCtx κ δ υ σ) (hmsgid : mctx.msgid = 0)
    (hei : mctx.expritem = []) (hdone : mctx.done = false) {r : Rule κ δ} (hr : r.rules ≠ [])
    (s : Sit κ δ υ σ γ ρ) :
    MailCtx.remaining env conf { mctx with stack := mctx.rule :: mctx.stack, rule := r.rules }
        .matchq s =
      evalEnd conf ((evalBody env conf r true s).andThen fun _ s =>
        evalStack env conf (mctx.rule.tail :: mctx.outer) s) := by
  rw [remaining_matchq { mctx with stack := mctx.rule :: mctx.stack, rule := r.rules } hmsgid hei
    (fun h => absurd h hr)]
  unfold evalBehind evalBody
  simp only [hdone, MailCtx.outer, evalStack, if_true, if_false, List.map_cons,
    Bool.false_eq_true]

/-- What is left to do when a rule without nested rules has matched. -/
theorem evalBody_leaf {r : Rule κ δ} (hr : r.rules = []) (s : Sit κ δ υ σ γ ρ) :
    evalBody env conf r true s = evalLeaf env conf r s := by
  unfold evalBody
  rw [hr]
  rfl

theorem stop_of_rules {r : Rule κ δ} (hr : r.rules ≠ []) : r.stop = false := by
  obtain ⟨idx, first, rest, users, cont, lambda, actions, rules⟩ := r
  simp only [Rule.rules] at hr
  simp [Rule.stop, List.isEmpty_eq_false_iff.mpr hr]

/-- What is left to do when a rule without nested rules has matched. -/
theorem remaining_leafMatched (mctx : MailCtx κ δ υ σ) (hmsgid : mctx.msgid = 0)
    (hei : mctx.expritem = []) (hq : mctx.dqueue = []) {r : Rule κ δ} (hdone : mctx.done = r.stop)
    (world : γ) (replies : List (Msg ρ)) (events : List (Event κ δ υ)) :
    let next := leafMatched env conf mctx r
    next.2.remaining env conf (placeAfter .matchq next.1 next.2.done)
        (next.2.sit world replies events) =
      evalEnd conf ((evalLeaf env conf r (mctx.sit world replies events)).andThen fun _ s =>
        evalStack env conf (mctx.rule.tail :: mctx.outer) s) := by
  -- the rules behind it, unless it stops
  have hbehind : ∀ s : Sit κ δ υ σ γ ρ,
      (evalStop r.stop s).andThen (fun _ s =>
        evalStack env conf (mctx.rule.tail :: mctx.outer) s) =
      if mctx.done then (.error .stopped, s.wrap ' ')
      else evalStack env conf (mctx.rule.tail :: mctx.outer) s := by
    intro s
    rw [hdone]
    unfold evalStop
    split <;> simp
  unfold evalLeaf leafMatched
  simp only [MailCtx.sit, hq, List.nil_append]
  cases hfill : fillFromRule env conf mctx.mail r with
  | none => rfl
  | some q =>
    by_cases hact : r.lambda.isSome = true ∨ r.actions ≠ []
    · simp only [if_pos hact, placeAfter, andThen_assoc, hbehind]
      rw [remaining_deliverq (nextRule { mctx with matched := true, dqueue := q } r) hmsgid]
      simp only [evalBehind_nextRule]
      rfl
    · simp only [if_neg hact, placeAfter, andThen_ok, hbehind]
      exact remaining_nextRule { mctx with matched := true, dqueue := q } hmsgid hei r _

/-- Behind the last item of an expression that is true. -/
theorem remaining_ruleMatched (mctx : MailCtx κ δ υ σ) (hmsgid : mctx.msgid = 0)
    (hei : mctx.expritem = []) (hdone : mctx.done = false) (hq : mctx.dqueue = [])
    (r : Rule κ δ) (world : γ) (replies : List (Msg ρ)) (events : List (Event κ δ υ)) :
    let next := ruleMatched env conf mctx r
    next.2.remaining env conf (placeAfter .matchq next.1 next.2.done)
        (next.2.sit world replies events) =
      evalEnd conf ((evalBody env conf r true (mctx.sit world replies events)).andThen fun _ s =>
        evalStack env conf (mctx.rule.tail :: mctx.outer) s) := by
  unfold ruleMatched
  simp only [hdone, Bool.false_or]
  by_cases hr : r.rules = []
  · rw [evalBody_leaf hr, if_neg (not_not.mpr hr)]
    exact remaining_leafMatched { mctx with done := r.stop } hmsgid hei hq rfl world replies events
  · rw [if_pos hr]
    exact remaining_nested { mctx with done := r.stop } hmsgid hei (stop_of_rules hr) hr _

variable (env conf) in
/-- From `next_expritem` on, whatever the result has become. -/
theorem remaining_nextExpritem (mctx : MailCtx κ δ υ σ) (hmsgid : mctx.msgid = 0)
    (hdone : mctx.done = false) (hq : mctx.dqueue = []) {r : Rule κ δ} {rs : List (Rule κ δ)}
    (hrule : mctx.rule = r :: rs) {eis : List (Expritem κ)} (heis : mctx.expritem.tail = eis)
    (world : γ) (replies : List (Msg ρ))
    (events : List (Event κ δ υ)) :
    let next := nextExpritem env conf mctx r
    next.2.remaining env conf (placeAfter .matchq next.1 next.2.done)
        (next.2.sit world replies events) =
      evalEnd conf (evalFrom env conf mctx r eis mctx.result
        (mctx.sit world replies events)) := by
  intro next
  subst heis
  by_cases htail : mctx.expritem.tail = []
  · simp only [htail, evalFrom, evalItems, andThen_ok]
    cases hres : mctx.result with
    | false =>
      have hnext : next = (.mailContinue, nextRule { mctx with expritem := [] } r) := by
        simp [next, nextExpritem, htail, hres]
      rw [hnext]
      refine (remaining_nextRule { mctx with expritem := [] } hmsgid rfl r _).trans ?_
      rw [if_neg (by simp [hdone])]
      rfl
    | true =>
      have hnext : next = ruleMatched env conf { mctx with expritem := [] } r := by
        simp [next, nextExpritem, htail, hres]
      rw [hnext]
      exact remaining_ruleMatched { mctx with expritem := [] } hmsgid rfl hdone hq r
        world replies events
  · have hnext : next = (.mailContinue, { mctx with expritem := mctx.expritem.tail }) := by
      simp [next, nextExpritem, htail]
    rw [hnext]
    simp [placeAfter, MailCtx.remaining, evalMatchq, hmsgid, hdone, hrule, htail, evalFrom,
      MailCtx.sit, MailCtx.outer]

theorem applyResult_of_not_skipped {ei : Expritem κ} {result : Bool}
    (h : skipped ei result = false) (this : Bool) :
    applyResult ei result this = (this != ei.inverted) := by
  obtain ⟨cond, op, inverted⟩ := ei
  revert h
  cases op <;> cases result <;> cases inverted <;> simp [skipped, applyResult]

theorem evalFrom_wrap (mctx : MailCtx κ δ υ σ) (r : Rule κ δ) (ei : Expritem κ)
    (eis : List (Expritem κ)) (result : Bool) (s : Sit κ δ υ σ γ ρ) :
    evalFrom env conf mctx r (ei :: eis) result (s.wrap ' ') =
      evalFrom env conf mctx r (ei :: eis) result s := by
  unfold evalFrom
  rw [evalItems_cons, evalItems_cons, wrap_wrap]

/-- The answer about a command. -/
theorem remaining_commandDone (mctx : MailCtx κ δ υ σ) (hdone : mctx.done = false)
    (hq : mctx.dqueue = []) {ei : Expritem κ} {eis : List (Expritem κ)}
    (hei : mctx.expritem = ei :: eis) (hskip : skipped ei mctx.result = false) {r : Rule κ δ}
    {rs : List (Rule κ δ)} (hrule : mctx.rule = r :: rs) (world : γ) (msg : Msg ρ)
    (replies : List (Msg ρ)) (events : List (Event κ δ υ)) :
    (commandDone env conf mctx world ei r msg).remaining env conf .matchq replies events =
      evalEnd conf ((evalReply env msg (mctx.sit world replies events)).andThen fun this s =>
        evalFrom env conf mctx r eis (this != ei.inverted) s) := by
  have htail : mctx.expritem.tail = eis := by rw [hei, List.tail_cons]
  by_cases htype : msg.type = .done
  · have hnext (this : Bool) := remaining_nextExpritem env conf
      { mctx with
        msgid := 0
        mail := { mctx.mail with rest := env.receiveTags msg.body mctx.mail.rest }
        result := applyResult ei mctx.result this } rfl hdone hq hrule htail world
      replies events
    simp only [applyResult_of_not_skipped hskip] at hnext
    simp only [commandDone, evalReply, htype, ne_eq, not_true_eq_false, if_false]
    -- by what the command says
    rcases msg.error with _ | _ | _ | n
    · simp only [Ran.remaining, List.append_nil, applyResult_of_not_skipped hskip]
      exact hnext false
    · simp only [Ran.remaining, List.append_nil, applyResult_of_not_skipped hskip]
      exact hnext true
    · simp only [Ran.remaining, List.append_nil]
      rfl
    · simp only [Ran.remaining, List.append_nil]
      rfl
  · simp [Ran.remaining, commandDone, evalReply, htype, placeAfter, MailCtx.remaining, evalEnd]

/-- One item of an expression. -/
theorem remaining_checkItem (mctx : MailCtx κ δ υ σ) (hidx : mctx.idx ≠ 0)
    (hmsgid : mctx.msgid = 0) (hdone : mctx.done = false) (hq : mctx.dqueue = [])
    {ei : Expritem κ} {eis : List (Expritem κ)} (hei : mctx.expritem = ei :: eis)
    {r : Rule κ δ} {rs : List (Rule κ δ)} (hrule : mctx.rule = r :: rs)
    (hwrap : mctx.mail.setWrapped ' ' = mctx.mail) (world : γ) (replies : List (Msg ρ))
    (events : List (Event κ δ υ)) :
    (checkItem env conf mctx world ei r).remaining env conf .matchq replies events =
      evalEnd conf (evalFrom env conf mctx r (ei :: eis) mctx.result
        (mctx.sit world replies events)) := by
  have hsit : (mctx.sit world replies events).wrap ' ' = mctx.sit world replies events := by
    simp [Sit.wrap, MailCtx.sit, hwrap]
  have htail : mctx.expritem.tail = eis := by rw [hei, List.tail_cons]
  unfold checkItem evalFrom Ran.remaining
  simp only [evalItems_cons, hsit]
  by_cases hskip : skipped ei mctx.result = true
  · simp only [if_pos hskip, List.append_nil]
    exact remaining_nextExpritem env conf mctx hmsgid hdone hq hrule htail world replies events
  · have hskip' : skipped ei mctx.result = false := by simpa using hskip
    simp only [if_neg hskip, evalCond, MailCtx.sit]
    rcases hres : matchItem env conf ei.cond mctx.matched mctx.mail world with ⟨res, m, world'⟩
    have hnext (this : Bool) := remaining_nextExpritem env conf
      { mctx with mail := m, result := applyResult ei mctx.result this } hmsgid hdone hq hrule
      htail world' replies (events ++ [.tried ei.cond])
    cases res with
    | matchError => rfl
    | matchTrue => exact hnext true
    | matchFalse => exact hnext false
    | matchParent =>
      simp only [placeAfter, MailCtx.remaining, evalMatchq, hidx, ne_eq, not_false_eq_true,
        if_true, hei, hrule, andThen_assoc, applyResult_of_not_skipped hskip']
      rfl

/-! ## Calls -/

/-- A call that does not bring what a mail waits for. -/
theorem remaining_blocked {mctx : MailCtx κ δ υ σ} (h : mctx.msgid ≠ 0) {place : Place} {ch : Char}
    (hplace : place = .matchq ∧ ch = ' ' ∨ place = .deliverq ∧ ch = '\n') (world : γ)
    (replies : List (Msg ρ)) (events : List (Event κ δ υ)) :
    (mctx.wrap ch).remaining env conf place ((mctx.wrap ch).sit world replies events) =
      mctx.remaining env conf place (mctx.sit world replies events) := by
  have hsit : (mctx.wrap ch).sit world replies events = (mctx.sit world replies events).wrap ch :=
    rfl
  rw [hsit]
  rcases hplace with ⟨rfl, rfl⟩ | ⟨rfl, rfl⟩
  · simp only [MailCtx.remaining, evalMatchq, wrap_msgid, h, ne_eq, not_false_eq_true, if_true,
      reply_wrap, wrap_wrap]
    rfl
  · simp only [MailCtx.remaining, evalDeliverq, wrap_msgid, h, ne_eq, not_false_eq_true, if_true,
      reply_wrap, wrap_wrap]
    rfl

/-- Going on with the rules. -/
theorem remaining_matchRule (mctx : MailCtx κ δ υ σ) (hidx : mctx.idx ≠ 0)
    (hmsgid : mctx.msgid = 0) (hdone : mctx.done = false) (hq : mctx.dqueue = []) (world : γ)
    (replies : List (Msg ρ)) (events : List (Event κ δ υ)) :
    (matchRule env conf (mctx.wrap ' ') world).remaining env conf .matchq replies events =
      mctx.remaining env conf .matchq (mctx.sit world replies events) := by
  by_cases hr : mctx.rule = []
  · simp [matchRule, Ran.remaining, placeAfter, MailCtx.remaining, evalMatchq, hmsgid, hdone, hr,
      evalEnd, MailCtx.sit, MailCtx.wrap]
  · obtain ⟨r, rs, hr⟩ := List.exists_cons_of_ne_nil hr
    by_cases hei : mctx.expritem = []
    · have hcall : matchRule env conf (mctx.wrap ' ') world =
          checkItem env conf { mctx.wrap ' ' with result := false, expritem := r.expr } world
            r.first r := by
        simp [matchRule, hr, hei]
      have hleft : mctx.remaining env conf .matchq (mctx.sit world replies events) =
          evalEnd conf (evalFrom env conf mctx r r.expr false (mctx.sit world replies events)) := by
        simp [MailCtx.remaining, evalMatchq, hmsgid, hdone, hr, hei]
      -- the headers are folded before the first item anyway
      rw [hcall, hleft, r.expr_eq, ← evalFrom_wrap]
      exact remaining_checkItem
        { mctx.wrap ' ' with result := false, expritem := r.first :: r.more } hidx hmsgid hdone hq
        rfl hr (setWrapped_setWrapped _ _) world replies events
    · obtain ⟨ei, eis, hei⟩ := List.exists_cons_of_ne_nil hei
      have hcall : matchRule env conf (mctx.wrap ' ') world =
          checkItem env conf (mctx.wrap ' ') world ei r := by
        simp [matchRule, hr, hei]
      have hleft : mctx.remaining env conf .matchq (mctx.sit world replies events) =
          evalEnd conf (evalFrom env conf mctx r (ei :: eis) mctx.result
            (mctx.sit world replies events)) := by
        simp [MailCtx.remaining, evalMatchq, hmsgid, hdone, hr, hei]
      rw [hcall, hleft, ← evalFrom_wrap]
      exact remaining_checkItem (mctx.wrap ' ') hidx hmsgid hdone hq hei hr
        (setWrapped_setWrapped _ _) world replies events

/-- The answer of the parent to a mail on the match queue. -/
theorem remaining_resumeMatch (mctx : MailCtx κ δ υ σ) (hmsgid : mctx.msgid ≠ 0)
    (hdone : mctx.done = false) (hq : mctx.dqueue = []) (hask : Asked mctx) (world : γ)
    (msg : Msg ρ) (replies : List (Msg ρ)) (events : List (Event κ δ υ)) :
    (resumeMatch env conf (mctx.wrap ' ') world msg).remaining env conf .matchq replies events =
      mctx.remaining env conf .matchq (mctx.sit world (msg :: replies) events) := by
  obtain ⟨ei, eis, hei, hskip⟩ := hask.item
  obtain ⟨r, rs, hr⟩ := List.exists_cons_of_ne_nil hask.rule
  have hcall : resumeMatch env conf (mctx.wrap ' ') world msg =
      commandDone env conf (mctx.wrap ' ') world ei r msg := by
    simp [resumeMatch, hr, hei]
  have hleft : mctx.remaining env conf .matchq (mctx.sit world (msg :: replies) events) =
      evalEnd conf ((evalReply env msg ((mctx.wrap ' ').sit world replies events)).andThen
        fun this s => evalFrom env conf (mctx.wrap ' ') r eis (this != ei.inverted) s) := by
    simp only [MailCtx.remaining, evalMatchq, hmsgid, ne_eq, not_false_eq_true, if_true, hei, hr]
    rfl
  rw [hcall, hleft]
  exact remaining_commandDone (mctx.wrap ' ') hdone hq hei hskip hr world msg replies events

variable (env conf) in
/-- A call of `mail_match`. -/
theorem remaining_mailMatch {mctx : MailCtx κ δ υ σ} (h : Placed mctx .matchq) (world : γ)
    (msg : Option (Msg ρ)) (replies : List (Msg ρ)) (events : List (Event κ δ υ)) :
    (mailMatch env conf mctx world msg).remaining env conf .matchq replies events =
      mctx.remaining env conf .matchq (mctx.sit world (taken mctx msg ++ replies) events) := by
  obtain ⟨hq, hrule, hasked⟩ := h.matchq rfl
  by_cases hmsgid : mctx.msgid = 0
  · simp only [mailMatch, taken, wrap_msgid, hmsgid, ne_eq, not_true_eq_false, if_false,
      List.nil_append, wrap_done]
    by_cases hdone : mctx.done = true
    · simp [hdone, Ran.remaining, placeAfter, MailCtx.remaining, evalMatchq, hmsgid, evalEnd,
        Sit.wrap, MailCtx.sit, MailCtx.wrap]
    · simp only [hdone, Bool.false_eq_true, if_false]
      exact remaining_matchRule mctx h.idx hmsgid (by simpa using hdone) hq world replies events
  · obtain ⟨hdone, hask⟩ := hasked hmsgid
    simp only [mailMatch, taken, wrap_msgid, hmsgid, ne_eq, not_false_eq_true, if_true, ownMsg_wrap]
    cases hmsg : ownMsg mctx msg with
    | none =>
      simp only [Ran.remaining, List.append_nil, Option.toList_none, List.nil_append]
      exact remaining_blocked hmsgid (.inl ⟨rfl, rfl⟩) world replies events
    | some msg => exact remaining_resumeMatch mctx hmsgid hdone hq hask world msg replies events

/-- A call of `mail_deliver` for a mail that waits for nothing. -/
theorem remaining_startFirst (mctx : MailCtx κ δ υ σ) (hidx : mctx.idx ≠ 0)
    (hmsgid : mctx.msgid = 0) (hei : mctx.expritem = []) (hout : mctx.rule = [] → mctx.stack = [])
    (world : γ) (replies : List (Msg ρ)) (events : List (Event κ δ υ)) :
    (startFirst env (mctx.wrap '\n') world).remaining env conf .deliverq replies events =
      mctx.remaining env conf .deliverq (mctx.sit world replies events) := by
  rw [remaining_deliverq mctx hmsgid]
  by_cases hq : mctx.dqueue = []
  · have hcall : startFirst env (mctx.wrap '\n') world =
        ⟨.mailMatch, mctx.wrap '\n', world, []⟩ := by
      simp [startFirst, hq]
    rw [hcall]
    simp only [Ran.remaining, placeAfter, List.append_nil, hq, evalActions, andThen_ok]
    exact remaining_matchq (mctx.wrap '\n') hmsgid hei hout _
  · obtain ⟨dctx, q, hq⟩ := List.exists_cons_of_ne_nil hq
    simp only [startFirst, wrap_dqueue, hq, evalActions, evalAction, Sit.wrap, MailCtx.sit]
    have hstart : startAction env (mctx.wrap '\n').mail world (mctx.wrap '\n').ruleidx dctx =
        startAction env (mctx.mail.setWrapped '\n') world mctx.ruleidx dctx := rfl
    rw [hstart]
    rcases startAction env (mctx.mail.setWrapped '\n') world mctx.ruleidx dctx with
      ⟨ret, m, world'⟩
    cases ret with
    | actionError => rfl
    | actionDone =>
      exact remaining_deliverq { mctx.wrap '\n' with mail := m, dqueue := q } hmsgid _
    | actionParent =>
      simp only [Ran.remaining, placeAfter, MailCtx.remaining, evalDeliverq, hidx, wrap_idx, ne_eq,
        not_false_eq_true, if_true, andThen_assoc]
      rfl

/-- The answer of the parent to a mail on the delivery queue. -/
theorem remaining_resumeDeliver (mctx : MailCtx κ δ υ σ) (hmsgid : mctx.msgid ≠ 0)
    (hq : mctx.dqueue ≠ []) (world : γ) (msg : Msg ρ) (replies : List (Msg ρ))
    (events : List (Event κ δ υ)) :
    (resumeDeliver env (mctx.wrap '\n') world msg).remaining env conf .deliverq replies events =
      mctx.remaining env conf .deliverq (mctx.sit world (msg :: replies) events) := by
  obtain ⟨dctx, q, hq⟩ := List.exists_cons_of_ne_nil hq
  have hleft : mctx.remaining env conf .deliverq (mctx.sit world (msg :: replies) events) =
      evalEnd conf ((evalDone env dctx msg ((mctx.wrap '\n').sit world replies events)).andThen
        fun _ s => (evalActions env mctx.ruleidx q s).andThen fun _ s =>
          evalBehind env conf mctx s) := by
    simp only [MailCtx.remaining, evalDeliverq, hmsgid, ne_eq, not_false_eq_true, if_true, hq,
      andThen_assoc]
    rfl
  rw [hleft]
  simp only [resumeDeliver, wrap_dqueue, hq, evalDone, MailCtx.sit]
  rcases finishAction env (mctx.wrap '\n').mail dctx msg with ⟨ret, m⟩
  have hnext : MailCtx.remaining env conf
      { mctx.wrap '\n' with msgid := 0, mail := m, dqueue := q } .deliverq
      (MailCtx.sit { mctx.wrap '\n' with msgid := 0, mail := m, dqueue := q } world replies
        events) = _ :=
    remaining_deliverq { mctx.wrap '\n' with msgid := 0, mail := m, dqueue := q } rfl _
  cases ret with
  | actionError =>
    simp only [Ran.remaining, List.append_nil]
    rfl
  | actionDone =>
    simp only [Ran.remaining, List.append_nil]
    exact hnext
  | actionParent =>
    simp only [Ran.remaining, List.append_nil]
    exact hnext

variable (env conf) in
/-- A call of `mail_deliver`. -/
theorem remaining_mailDeliver {mctx : MailCtx κ δ υ σ} (h : Placed mctx .deliverq) (world : γ)
    (msg : Option (Msg ρ)) (replies : List (Msg ρ)) (events : List (Event κ δ υ)) :
    (mailDeliver env mctx world msg).remaining env conf .deliverq replies events =
      mctx.remaining env conf .deliverq (mctx.sit world (taken mctx msg ++ replies) events) := by
  obtain ⟨hei, hwaits⟩ := h.deliverq rfl
  by_cases hmsgid : mctx.msgid = 0
  · simp only [mailDeliver, taken, wrap_msgid, hmsgid, ne_eq, not_true_eq_false, if_false,
      List.nil_append]
    exact remaining_startFirst mctx h.idx hmsgid hei h.outermost world replies events
  · simp only [mailDeliver, taken, wrap_msgid, hmsgid, ne_eq, not_false_eq_true, if_true,
      ownMsg_wrap]
    cases hmsg : ownMsg mctx msg with
    | none =>
      simp only [Ran.remaining, List.append_nil, Option.toList_none, List.nil_append]
      exact remaining_blocked hmsgid (.inr ⟨rfl, rfl⟩) world replies events
    | some msg =>
      exact remaining_resumeDeliver mctx hmsgid (hwaits hmsgid).2 world msg replies events

end

end Fdm.Rules
