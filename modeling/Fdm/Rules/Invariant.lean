import Fdm.Rules.Simulation

/-!
# What calls keep, and what they use up

Every call leaves a mail in a state that fits the queue it is on (`Placed`), and uses up some of
the work that is left (`MailCtx.rank`), unless the mail waits for a message that the call does
not bring. What has been done is never undone: an evaluation only adds events.
-/

namespace Fdm.Rules

variable {κ δ υ σ γ ρ : Type}

/-! ## Weights -/

mutual

/-- The calls that a rule can take at most, when none of its items is answered at once. -/
def Rule.weight : Rule κ δ → ℕ
  | .mk _ _ rest _ _ _ _ rules => 2 * (rest.length + 1) + rulesWeight rules

def rulesWeight : List (Rule κ δ) → ℕ
  | [] => 0
  | r :: rs => r.weight + rulesWeight rs

end

/-- A rule weighs two for each part of its expression, and what its rules weigh. -/
theorem weight_eq (r : Rule κ δ) : r.weight = 2 * r.expr.length + rulesWeight r.rules := by
  obtain ⟨idx, first, rest, users, cont, lambda, actions, rules⟩ := r
  simp [Rule.weight, Rule.expr, Rule.rules]

/-- The weight of the rules that come behind those on the stack. -/
def stackWeight (stack : List (List (Rule κ δ))) : ℕ :=
  (stack.map fun rs => rulesWeight rs.tail).sum

/-- Going back to the rules around changes no weight. -/
theorem popRules_weight (rule : List (Rule κ δ)) (stack : List (List (Rule κ δ))) :
    rulesWeight (popRules rule stack).1 + stackWeight (popRules rule stack).2 =
      rulesWeight rule + stackWeight stack := by
  induction stack generalizing rule with
  | nil => cases rule <;> simp [popRules]
  | cons top stack ih =>
    cases rule with
    | nil =>
      rw [popRules, ih]
      simp [stackWeight, rulesWeight]
    | cons r rs => simp [popRules]

/-- The items that are left of a rule, twice over: one is asked for and one is answered. -/
def MailCtx.itemsWork (mctx : MailCtx κ δ υ σ) (r : Rule κ δ) : ℕ :=
  if mctx.expritem = [] then 2 * r.expr.length
  else if mctx.msgid ≠ 0 then 2 * mctx.expritem.length - 1
  else 2 * mctx.expritem.length

/-- The work that the rules can still make. -/
def MailCtx.work (mctx : MailCtx κ δ υ σ) : ℕ :=
  match mctx.rule with
  | [] => stackWeight mctx.stack
  | r :: rs => mctx.itemsWork r + rulesWeight r.rules + rulesWeight rs + stackWeight mctx.stack

/-- The work at the beginning of a rule. -/
theorem work_of_start (mctx : MailCtx κ δ υ σ) (hei : mctx.expritem = []) :
    mctx.work = rulesWeight mctx.rule + stackWeight mctx.stack := by
  unfold MailCtx.work MailCtx.itemsWork
  cases mctx.rule with
  | nil => simp [rulesWeight]
  | cons r rs => simp [hei, rulesWeight, weight_eq]

/-- The actions that are left, twice over, and the call that ends with them. -/
def MailCtx.actionsWork (mctx : MailCtx κ δ υ σ) : ℕ :=
  if mctx.msgid ≠ 0 then 2 * mctx.dqueue.length else 2 * mctx.dqueue.length + 1

/-- The rank of a mail in some place. -/
def MailCtx.rank (mctx : MailCtx κ δ υ σ) (place : Place) : ℕ ×ₗ ℕ :=
  match place with
  | .matchq => toLex (mctx.work + 1, 0)
  | .deliverq => toLex (mctx.work + 1, mctx.actionsWork)
  | .finished _ => toLex (0, 0)

/-- Less work is a smaller rank, wherever the mail goes to. -/
theorem rank_lt_of_work {mctx mctx' : MailCtx κ δ υ σ} (h : mctx'.work < mctx.work)
    (place : Place) : mctx'.rank place < mctx.rank .matchq := by
  cases place with
  | matchq => exact Prod.Lex.left _ _ (by omega)
  | deliverq => exact Prod.Lex.left _ _ (by omega)
  | finished _ => exact Prod.Lex.left _ _ (by omega)

/-- A mail that has finished has the smallest rank. -/
theorem rank_finished_lt {mctx mctx' : MailCtx κ δ υ σ} (h : Halt) {place : Place}
    (hplace : place = .matchq ∨ place = .deliverq) :
    mctx'.rank (.finished h) < mctx.rank place := by
  rcases hplace with rfl | rfl <;> exact Prod.Lex.left _ _ (by omega)

/-! ## The end of an item -/

section

variable {env : Env κ δ υ σ γ ρ} {conf : Conf κ δ}

/-- A mail that has finished. -/
theorem placed_finished (mctx : MailCtx κ δ υ σ) (hidx : mctx.idx ≠ 0)
    (hout : mctx.rule = [] → mctx.stack = []) (h : Halt) : Placed mctx (.finished h) where
  idx := hidx
  outermost := hout
  matchq hp := by cases hp
  deliverq hp := by cases hp

/-- A mail that is put back to be matched. -/
theorem placed_matchq (mctx : MailCtx κ δ υ σ) (hidx : mctx.idx ≠ 0)
    (hout : mctx.rule = [] → mctx.stack = []) (hmsgid : mctx.msgid = 0) (hq : mctx.dqueue = [])
    (hei : mctx.expritem ≠ [] → mctx.rule ≠ []) : Placed mctx .matchq where
  idx := hidx
  outermost := hout
  matchq _ := ⟨hq, hei, fun h => absurd hmsgid h⟩
  deliverq hp := by cases hp

/-- A mail that is to be delivered. -/
theorem placed_deliverq (mctx : MailCtx κ δ υ σ) (hidx : mctx.idx ≠ 0)
    (hout : mctx.rule = [] → mctx.stack = []) (hei : mctx.expritem = [])
    (hmsgid : mctx.msgid ≠ 0 → mctx.msgid = mctx.idx ∧ mctx.dqueue ≠ []) :
    Placed mctx .deliverq where
  idx := hidx
  outermost := hout
  matchq hp := by cases hp
  deliverq _ := ⟨hei, hmsgid⟩

/-- A rule without actions queues nothing. -/
theorem fillFromRule_of_none {m : MailData σ} {r : Rule κ δ} {q : List (DeliverCtx δ υ)}
    (h : fillFromRule env conf m r = some q) (hact : ¬ (r.lambda.isSome = true ∨ r.actions ≠ [])) :
    q = [] := by
  have hl : r.lambda = none := by
    by_contra hne
    exact hact (.inl (Option.isSome_iff_ne_none.mpr hne))
  have ha : r.actions = [] := by
    by_contra hne
    exact hact (.inr hne)
  simpa [fillFromRule, hl, ha] using h.symm

/-- A mail that waits for nothing, at an item of a rule. -/
structure AtItem (mctx : MailCtx κ δ υ σ) (r : Rule κ δ) (rs : List (Rule κ δ)) : Prop where
  idx : mctx.idx ≠ 0
  msgid : mctx.msgid = 0
  dqueue : mctx.dqueue = []
  rule : mctx.rule = r :: rs

/-- A step keeps the state of a mail in order, and leaves less work. -/
def Advances (mctx : MailCtx κ δ υ σ) (place : Place) (next : MailRet × MailCtx κ δ υ σ) : Prop :=
  Placed next.2 (placeAfter place next.1 next.2.done) ∧
    next.2.rank (placeAfter place next.1 next.2.done) < mctx.rank place

/-- The rule that was looked at is gone. -/
theorem nextRule_work {m : MailCtx κ δ υ σ} {r : Rule κ δ} {rs : List (Rule κ δ)}
    (hrule : m.rule = r :: rs) (hei : m.expritem = []) :
    (nextRule m r).work = rulesWeight rs + stackWeight m.stack := by
  rw [work_of_start (nextRule m r) hei]
  have hpop := popRules_weight m.rule.tail m.stack
  rw [hrule, List.tail_cons] at hpop
  simpa [nextRule, hrule] using hpop

/-- A rule that does not match is done with. -/
theorem advances_nextRule {mctx m : MailCtx κ δ υ σ} {r : Rule κ δ} {rs : List (Rule κ δ)}
    (h : AtItem m r rs) (hei : m.expritem = []) (hwork : rulesWeight rs + stackWeight m.stack <
      mctx.work) : Advances mctx .matchq (.mailContinue, nextRule m r) := by
  constructor
  · exact placed_matchq (nextRule m r) h.idx (popRules_outermost _ _) h.msgid h.dqueue
      fun hne => absurd hei hne
  · rw [← nextRule_work h.rule hei] at hwork
    exact rank_lt_of_work hwork _

/-- A rule with actions that matches. -/
theorem advances_leafMatched {mctx m : MailCtx κ δ υ σ} {r : Rule κ δ} {rs : List (Rule κ δ)}
    (h : AtItem m r rs) (hei : m.expritem = []) (hwork : rulesWeight rs + stackWeight m.stack <
      mctx.work) : Advances mctx .matchq (leafMatched env conf m r) := by
  unfold leafMatched
  dsimp only
  cases hfill : fillFromRule env conf m.mail r with
  | none =>
    refine ⟨placed_finished { m with matched := true } h.idx (fun hr => ?_) _,
      rank_finished_lt _ (.inl rfl)⟩
    rw [h.rule] at hr
    cases hr
  | some q =>
    have hwork' : (nextRule { m with matched := true, dqueue := m.dqueue ++ q } r).work <
        mctx.work := by
      rw [nextRule_work (m := { m with matched := true, dqueue := m.dqueue ++ q }) h.rule hei]
      exact hwork
    by_cases hact : r.lambda.isSome = true ∨ r.actions ≠ []
    · simp only [if_pos hact]
      exact ⟨placed_deliverq (nextRule { m with matched := true, dqueue := m.dqueue ++ q } r) h.idx
        (popRules_outermost _ _) hei fun hne => absurd h.msgid hne, rank_lt_of_work hwork' _⟩
    · simp only [if_neg hact]
      have hq : m.dqueue ++ q = [] := by
        rw [h.dqueue, fillFromRule_of_none hfill hact, List.append_nil]
      exact ⟨placed_matchq (nextRule { m with matched := true, dqueue := m.dqueue ++ q } r) h.idx
        (popRules_outermost _ _) h.msgid hq fun hne => absurd hei hne, rank_lt_of_work hwork' _⟩

/-- A rule that matches, with actions or with rules below it: those are looked at before the
others. -/
theorem advances_ruleMatched {mctx m : MailCtx κ δ υ σ} {r : Rule κ δ} {rs : List (Rule κ δ)}
    (h : AtItem m r rs) (hei : m.expritem = [])
    (hwork : rulesWeight r.rules + rulesWeight rs + stackWeight m.stack < mctx.work) :
    Advances mctx .matchq (ruleMatched env conf m r) := by
  unfold ruleMatched
  by_cases hr : r.rules = []
  · simp only [hr, ne_eq, not_true_eq_false, if_false]
    rw [hr, rulesWeight, Nat.zero_add] at hwork
    exact advances_leafMatched (m := { m with done := m.done || r.stop }) { h with } hei hwork
  · simp only [hr, ne_eq, not_false_eq_true, if_true]
    constructor
    · exact placed_matchq
        { m with done := m.done || r.stop, stack := m.rule :: m.stack, rule := r.rules } h.idx
        (fun hnil => absurd hnil hr) h.msgid h.dqueue fun _ => hr
    · apply rank_lt_of_work
      dsimp only
      rw [work_of_start { m with
        done := m.done || r.stop, stack := m.rule :: m.stack, rule := r.rules } hei]
      simp only [h.rule, stackWeight, List.map_cons, List.sum_cons, List.tail_cons] at hwork ⊢
      omega

/-- The next item, the next rule, or the actions of a rule. -/
theorem advances_nextExpritem {mctx m : MailCtx κ δ υ σ} {r : Rule κ δ} {rs : List (Rule κ δ)}
    (h : AtItem m r rs) {ei : Expritem κ} {eis : List (Expritem κ)} (hei : m.expritem = ei :: eis)
    (hwork : 2 * eis.length + rulesWeight r.rules + rulesWeight rs + stackWeight m.stack <
      mctx.work) : Advances mctx .matchq (nextExpritem env conf m r) := by
  have htail : m.expritem.tail = eis := by rw [hei, List.tail_cons]
  unfold nextExpritem
  simp only [htail]
  by_cases heis : eis = []
  · subst heis
    simp only [ne_eq, not_true_eq_false, if_false]
    split
    · have hless : rulesWeight rs + stackWeight m.stack < mctx.work := by omega
      exact advances_nextRule (m := { m with expritem := [] }) { h with } rfl hless
    · exact advances_ruleMatched (m := { m with expritem := [] }) { h with } rfl
        (by simpa using hwork)
  · simp only [heis, ne_eq, not_false_eq_true, if_true]
    refine ⟨placed_matchq { m with expritem := eis } h.idx (fun hnil => ?_) h.msgid h.dqueue
      (fun _ => ?_), rank_lt_of_work ?_ _⟩
    · rw [h.rule] at hnil
      cases hnil
    · rw [h.rule]
      exact List.cons_ne_nil _ _
    · simp only [MailCtx.work, MailCtx.itemsWork, h.rule, heis, h.msgid, ne_eq, not_true_eq_false,
        if_false]
      exact hwork

/-! ## The id of a mail -/

@[simp] theorem leafMatched_idx (mctx : MailCtx κ δ υ σ) (r : Rule κ δ) :
    (leafMatched env conf mctx r).2.idx = mctx.idx := by
  unfold leafMatched
  dsimp only
  split <;> rfl

@[simp] theorem ruleMatched_idx (mctx : MailCtx κ δ υ σ) (r : Rule κ δ) :
    (ruleMatched env conf mctx r).2.idx = mctx.idx := by
  unfold ruleMatched
  dsimp only
  split
  · rfl
  · rw [leafMatched_idx]

@[simp] theorem nextExpritem_idx (mctx : MailCtx κ δ υ σ) (r : Rule κ δ) :
    (nextExpritem env conf mctx r).2.idx = mctx.idx := by
  unfold nextExpritem
  dsimp only
  split
  · rfl
  · split
    · rfl
    · rw [ruleMatched_idx]

theorem commandDone_idx (mctx : MailCtx κ δ υ σ) (world : γ) (ei : Expritem κ) (r : Rule κ δ)
    (msg : Msg ρ) : (commandDone env conf mctx world ei r msg).mctx.idx = mctx.idx := by
  unfold commandDone
  split
  · rfl
  · dsimp only
    split <;> simp

theorem checkItem_idx (mctx : MailCtx κ δ υ σ) (world : γ) (ei : Expritem κ) (r : Rule κ δ) :
    (checkItem env conf mctx world ei r).mctx.idx = mctx.idx := by
  unfold checkItem
  split
  · simp
  · dsimp only
    split <;> simp

/-- A mail keeps its number in `mail_match`. -/
theorem mailMatch_idx (mctx : MailCtx κ δ υ σ) (world : γ) (msg : Option (Msg ρ)) :
    (mailMatch env conf mctx world msg).mctx.idx = mctx.idx := by
  unfold mailMatch
  dsimp only
  split
  · split
    · rfl
    · unfold resumeMatch
      split
      · rw [commandDone_idx, wrap_idx]
      · rfl
  · split
    · rfl
    · unfold matchRule
      split
      · rfl
      · split <;> rw [checkItem_idx] <;> rfl

/-- And in `mail_deliver`. -/
theorem mailDeliver_idx (mctx : MailCtx κ δ υ σ) (world : γ) (msg : Option (Msg ρ)) :
    (mailDeliver env mctx world msg).mctx.idx = mctx.idx := by
  unfold mailDeliver
  dsimp only
  split
  · split
    · rfl
    · unfold resumeDeliver
      split
      · rfl
      · split <;> rfl
  · unfold startFirst
    split
    · rfl
    · split <;> rfl

/-! ## Calls of `mail_match` -/

/-- The same of a call. -/
def Ran.Advances (mctx : MailCtx κ δ υ σ) (place : Place) (ran : Ran κ δ υ σ γ) : Prop :=
  Rules.Advances mctx place (ran.ret, ran.mctx)

/-- A call that ends the mail. -/
theorem advances_finished (ret : MailRet) {mctx m : MailCtx κ δ υ σ} {place : Place}
    (hplace : place = .matchq ∨ place = .deliverq) (hidx : m.idx ≠ 0)
    (hout : m.rule = [] → m.stack = []) {h : Halt}
    (hret : placeAfter place ret m.done = .finished h) : Advances mctx place (ret, m) := by
  unfold Advances
  rw [hret]
  exact ⟨placed_finished m hidx hout h, rank_finished_lt h hplace⟩

/-- A command has been run: its part of the expression is done with. -/
theorem advances_commandDone {mctx m : MailCtx κ δ υ σ} (hidx : m.idx ≠ 0) (hq : m.dqueue = [])
    {r : Rule κ δ} {rs : List (Rule κ δ)} (hrule : m.rule = r :: rs) {ei : Expritem κ}
    {eis : List (Expritem κ)} (hei : m.expritem = ei :: eis)
    (hwork : 2 * eis.length + rulesWeight r.rules + rulesWeight rs + stackWeight m.stack <
      mctx.work) (world : γ) (msg : Msg ρ) :
    (commandDone env conf m world ei r msg).Advances mctx .matchq := by
  have hout : m.rule = [] → m.stack = [] := by simp [hrule]
  unfold commandDone
  by_cases htype : msg.type = .done
  · simp only [htype, ne_eq, not_true_eq_false, if_false]
    match msg.error with
    | 0 => exact advances_nextExpritem (AtItem.mk hidx rfl hq hrule) hei hwork
    | 1 => exact advances_nextExpritem (AtItem.mk hidx rfl hq hrule) hei hwork
    | 2 => exact advances_finished .mailError (.inl rfl) hidx hout rfl
    | n + 3 => exact advances_finished .fatal (.inl rfl) hidx hout rfl
  · simp only [htype, ne_eq, not_false_eq_true, if_true]
    exact advances_finished .fatal (.inl rfl) hidx hout rfl

/-- The work before the expression of a rule is looked at. -/
theorem work_of_first {mctx : MailCtx κ δ υ σ} {r : Rule κ δ} {rs : List (Rule κ δ)}
    (hrule : mctx.rule = r :: rs) (hei : mctx.expritem = []) :
    mctx.work = 2 * r.more.length + 2 + rulesWeight r.rules + rulesWeight rs +
      stackWeight mctx.stack := by
  simp only [MailCtx.work, MailCtx.itemsWork, hrule, hei, if_true, r.expr_eq, List.length_cons]
  omega

/-- The work while it is; it is less by one while a command is out. -/
theorem work_of_next (mctx : MailCtx κ δ υ σ) {r : Rule κ δ} {rs : List (Rule κ δ)}
    (hrule : mctx.rule = r :: rs) {ei : Expritem κ} {eis : List (Expritem κ)}
    (hei : mctx.expritem = ei :: eis) :
    mctx.work = (if mctx.msgid ≠ 0 then 2 * eis.length + 1 else 2 * eis.length + 2) +
      rulesWeight r.rules + rulesWeight rs + stackWeight mctx.stack := by
  simp only [MailCtx.work, MailCtx.itemsWork, hrule, hei, List.length_cons, reduceCtorEq, if_false]
  split <;> omega

/-- A part of an expression is done with, or its command is sent to the parent. -/
theorem advances_checkItem {mctx m : MailCtx κ δ υ σ} {r : Rule κ δ} {rs : List (Rule κ δ)}
    (h : AtItem m r rs) (hdone : m.done = false) {ei : Expritem κ} {eis : List (Expritem κ)}
    (hei : m.expritem = ei :: eis)
    (hwork : 2 * eis.length + 2 + rulesWeight r.rules + rulesWeight rs + stackWeight m.stack ≤
      mctx.work) (world : γ) : (checkItem env conf m world ei r).Advances mctx .matchq := by
  have hout : m.rule = [] → m.stack = [] := by simp [h.rule]
  unfold checkItem
  by_cases hskip : skipped ei m.result = true
  · simp only [hskip, if_true]
    exact advances_nextExpritem h hei (by omega)
  · simp only [hskip, Bool.false_eq_true, if_false]
    rcases matchItem env conf ei.cond m.matched m.mail world with ⟨res, mail, world'⟩
    cases res with
    | matchError => exact advances_finished .mailError (.inl rfl) h.idx hout rfl
    | matchTrue =>
      exact advances_nextExpritem (AtItem.mk h.idx h.msgid h.dqueue h.rule) hei (by simp; omega)
    | matchFalse =>
      exact advances_nextExpritem (AtItem.mk h.idx h.msgid h.dqueue h.rule) hei (by simp; omega)
    | matchParent =>
      constructor
      · exact {
          idx := h.idx
          outermost := hout
          matchq := fun _ => ⟨h.dqueue, fun _ => by simp [h.rule], fun _ => ⟨hdone, {
            msgid := rfl
            rule := by simp [h.rule]
            item := ⟨ei, eis, hei, by simpa using hskip⟩ }⟩⟩
          deliverq := fun hp => by cases hp }
      · have hleft := work_of_next { m with mail := mail, msgid := m.idx } h.rule hei
        rw [if_pos h.idx] at hleft
        apply rank_lt_of_work
        dsimp only at hleft ⊢
        omega

/-- `mail_match`, when it begins with a rule. -/
theorem advances_matchRule (mctx : MailCtx κ δ υ σ) (hidx : mctx.idx ≠ 0)
    (hmsgid : mctx.msgid = 0) (hdone : mctx.done = false) (hq : mctx.dqueue = [])
    (hout : mctx.rule = [] → mctx.stack = []) (world : γ) :
    (matchRule env conf (mctx.wrap ' ') world).Advances mctx .matchq := by
  by_cases hr : mctx.rule = []
  · have hcall : matchRule env conf (mctx.wrap ' ') world = ⟨.mailDone,
        { mctx.wrap ' ' with mail := unmatched conf (mctx.wrap ' ').mail }, world, []⟩ := by
      simp [matchRule, hr]
    rw [hcall]
    exact advances_finished .mailDone (.inl rfl) hidx hout rfl
  · obtain ⟨r, rs, hr⟩ := List.exists_cons_of_ne_nil hr
    by_cases hei : mctx.expritem = []
    · have hcall : matchRule env conf (mctx.wrap ' ') world =
          checkItem env conf { mctx.wrap ' ' with result := false, expritem := r.expr } world
            r.first r := by
        simp [matchRule, hr, hei]
      rw [hcall]
      exact advances_checkItem
        (m := { mctx.wrap ' ' with result := false, expritem := r.expr })
        (AtItem.mk hidx hmsgid hq hr) hdone r.expr_eq (work_of_first hr hei).ge world
    · obtain ⟨ei, eis, hei⟩ := List.exists_cons_of_ne_nil hei
      have hcall : matchRule env conf (mctx.wrap ' ') world =
          checkItem env conf (mctx.wrap ' ') world ei r := by
        simp [matchRule, hr, hei]
      have hwork := work_of_next mctx hr hei
      rw [if_neg (not_not.mpr hmsgid)] at hwork
      rw [hcall]
      exact advances_checkItem (m := mctx.wrap ' ') (AtItem.mk hidx hmsgid hq hr) hdone hei
        hwork.ge world

/-- A call of `mail_match` that is not for nothing. -/
theorem advances_mailMatch {mctx : MailCtx κ δ υ σ} (h : Placed mctx .matchq) (world : γ)
    (msg : Option (Msg ρ)) (hmsg : mctx.msgid ≠ 0 → ownMsg mctx msg ≠ none) :
    (mailMatch env conf mctx world msg).Advances mctx .matchq := by
  obtain ⟨hq, hrule, hasked⟩ := h.matchq rfl
  unfold mailMatch
  by_cases hmsgid : mctx.msgid = 0
  · simp only [wrap_msgid, hmsgid, ne_eq, not_true_eq_false, if_false, wrap_done]
    by_cases hdone : mctx.done = true
    · simp only [hdone, if_true]
      exact advances_finished (h := .stopped) .mailDone (.inl rfl) h.idx h.outermost
        (by simp [placeAfter, hdone])
    · simp only [hdone, Bool.false_eq_true, if_false]
      exact advances_matchRule mctx h.idx hmsgid (by simpa using hdone) hq h.outermost world
  · obtain ⟨hdone, hask⟩ := hasked hmsgid
    obtain ⟨ei, eis, hei, -⟩ := hask.item
    obtain ⟨r, rs, hr⟩ := List.exists_cons_of_ne_nil hask.rule
    obtain ⟨own, hown⟩ := Option.ne_none_iff_exists'.mp (hmsg hmsgid)
    have hwork := work_of_next mctx hr hei
    rw [if_pos hmsgid] at hwork
    simp only [wrap_msgid, hmsgid, ne_eq, not_false_eq_true, if_true, ownMsg_wrap, hown]
    have hcall : resumeMatch env conf (mctx.wrap ' ') world own =
        commandDone env conf (mctx.wrap ' ') world ei r own := by
      simp [resumeMatch, hr, hei]
    rw [hcall]
    exact advances_commandDone (m := mctx.wrap ' ') h.idx hq hr hei
      (by simp only [wrap_stack]; omega) world own

/-! ## Calls of `mail_deliver` -/

/-- Fewer actions are a smaller rank among the mails that are delivered. -/
theorem rank_lt_of_actions {mctx m : MailCtx κ δ υ σ} (hwork : m.work = mctx.work)
    (hlt : m.actionsWork < mctx.actionsWork) : m.rank .deliverq < mctx.rank .deliverq := by
  unfold MailCtx.rank
  rw [hwork]
  exact Prod.Lex.right _ hlt

/-- Going back to be matched is a smaller rank when the last action is done. -/
theorem rank_matchq_lt {mctx m : MailCtx κ δ υ σ} (hwork : m.work = mctx.work)
    (hmsgid : mctx.msgid = 0) : m.rank .matchq < mctx.rank .deliverq := by
  unfold MailCtx.rank
  rw [hwork]
  exact Prod.Lex.right _ (by simp [MailCtx.actionsWork, hmsgid])

/-- Between the rules the message a mail waits for makes no work. -/
theorem work_congr {mctx m : MailCtx κ δ υ σ} (hrule : m.rule = mctx.rule)
    (hstack : m.stack = mctx.stack) (hei : mctx.expritem = []) (hei' : m.expritem = []) :
    m.work = mctx.work := by
  rw [work_of_start m hei', work_of_start mctx hei, hrule, hstack]

/-- The next action is started. -/
theorem advances_startFirst (mctx : MailCtx κ δ υ σ) (hidx : mctx.idx ≠ 0)
    (hmsgid : mctx.msgid = 0) (hei : mctx.expritem = []) (hout : mctx.rule = [] → mctx.stack = [])
    (world : γ) : (startFirst env (mctx.wrap '\n') world).Advances mctx .deliverq := by
  by_cases hq : mctx.dqueue = []
  · have hcall : startFirst env (mctx.wrap '\n') world =
        ⟨.mailMatch, mctx.wrap '\n', world, []⟩ := by
      simp [startFirst, hq]
    rw [hcall]
    exact ⟨placed_matchq (mctx.wrap '\n') hidx hout hmsgid hq fun hne => absurd hei hne,
      rank_matchq_lt rfl hmsgid⟩
  · obtain ⟨dctx, q, hq⟩ := List.exists_cons_of_ne_nil hq
    simp only [startFirst, wrap_dqueue, hq]
    rcases startAction env (mctx.wrap '\n').mail world (mctx.wrap '\n').ruleidx dctx with
      ⟨ret, m, world'⟩
    cases ret with
    | actionError => exact advances_finished .mailError (.inr rfl) hidx hout rfl
    | actionDone =>
      refine ⟨placed_deliverq { mctx.wrap '\n' with mail := m, dqueue := q } hidx hout hei
        fun hne => absurd hmsgid hne, rank_lt_of_actions (work_congr rfl rfl hei hei) ?_⟩
      simp [MailCtx.actionsWork, hmsgid, hq]
    | actionParent =>
      refine ⟨placed_deliverq { mctx.wrap '\n' with
          mail := m, msgid := mctx.idx, dqueue := dctx :: q } hidx hout hei
        fun _ => ⟨rfl, List.cons_ne_nil _ _⟩, rank_lt_of_actions (work_congr rfl rfl hei hei) ?_⟩
      simp [MailCtx.actionsWork, hmsgid, hidx, hq]

/-- The reply to an action ends it. -/
theorem advances_resumeDeliver (mctx : MailCtx κ δ υ σ) (hidx : mctx.idx ≠ 0)
    (hmsgid : mctx.msgid ≠ 0) (hei : mctx.expritem = []) (hout : mctx.rule = [] → mctx.stack = [])
    (hq : mctx.dqueue ≠ []) (world : γ) (msg : Msg ρ) :
    (resumeDeliver env (mctx.wrap '\n') world msg).Advances mctx .deliverq := by
  obtain ⟨dctx, q, hq⟩ := List.exists_cons_of_ne_nil hq
  simp only [resumeDeliver, wrap_dqueue, hq]
  rcases finishAction env (mctx.wrap '\n').mail dctx msg with ⟨ret, m⟩
  have hnext : Advances mctx .deliverq
      (.mailContinue, { mctx.wrap '\n' with msgid := 0, mail := m, dqueue := q }) := by
    refine ⟨placed_deliverq { mctx.wrap '\n' with msgid := 0, mail := m, dqueue := q } hidx hout
      hei fun hne => absurd rfl hne, rank_lt_of_actions (work_congr rfl rfl hei hei) ?_⟩
    simp [MailCtx.actionsWork, hmsgid, hq]
    omega
  cases ret with
  | actionError => exact advances_finished .mailError (.inr rfl) hidx hout rfl
  | actionDone => exact hnext
  | actionParent => exact hnext

/-- A call of `mail_deliver` that is not for nothing. -/
theorem advances_mailDeliver {mctx : MailCtx κ δ υ σ} (h : Placed mctx .deliverq) (world : γ)
    (msg : Option (Msg ρ)) (hmsg : mctx.msgid ≠ 0 → ownMsg mctx msg ≠ none) :
    (mailDeliver env mctx world msg).Advances mctx .deliverq := by
  obtain ⟨hei, hwaits⟩ := h.deliverq rfl
  unfold mailDeliver
  by_cases hmsgid : mctx.msgid = 0
  · simp only [wrap_msgid, hmsgid, ne_eq, not_true_eq_false, if_false]
    exact advances_startFirst mctx h.idx hmsgid hei h.outermost world
  · obtain ⟨own, hown⟩ := Option.ne_none_iff_exists'.mp (hmsg hmsgid)
    simp only [wrap_msgid, hmsgid, ne_eq, not_false_eq_true, if_true, ownMsg_wrap, hown]
    exact advances_resumeDeliver mctx h.idx hmsgid hei h.outermost (hwaits hmsgid).2 world own

end

end Fdm.Rules
