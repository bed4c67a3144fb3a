import Fdm.Rules.Theorems

/-!
# Rules in a world that others change

While a mail waits, other mails are matched and delivered, and change what lies outside of the
mails. An environment whose functions find it in given states, one for each call, does for one
mail what the functions do for it among others.
-/

namespace Fdm.Rules

variable {κ δ υ σ γ ρ : Type}

/-- The functions of an environment, which find the world in one state after the other. -/
def Env.seeing (env : Env κ δ υ σ γ ρ) : Env κ δ υ σ (List γ) ρ where
  tryMatch data matched m worlds :=
    match worlds with
    | [] => (none, m, [])
    | world :: worlds =>
      let (res, m, _) := env.tryMatch data matched m world
      (res, m, worlds)
  deliver data udata m worlds :=
    match worlds with
    | [] => (false, m, [])
    | world :: worlds =>
      let (success, m, _) := env.deliver data udata m world
      (success, m, worlds)
  replacestr := env.replacestr
  userLookup := env.userLookup
  actionMatch := env.actionMatch
  addTag := env.addTag
  updateTags := env.updateTags
  resetTags := env.resetTags
  receiveTags := env.receiveTags
  receiveMail := env.receiveMail

/-- The states of the world that the functions called for an event find; a command and an action
that runs as its user are left to the parent. -/
def Event.found (world : γ) : Event κ δ υ → List γ
  | .tried (.other _) => [world]
  | .tried (.command _ _) => []
  | .started dctx =>
    match dctx.type with
    | .inchild => [world]
    | _ => []

/-- The states of the world that a call finds. -/
def Ran.found (ran : Ran κ δ υ σ γ) (world : γ) : List γ := ran.events.flatMap (Event.found world)

/-- A call that leaves the world in some other state. -/
def Ran.into {γ' : Type} (ran : Ran κ δ υ σ γ) (world : γ') : Ran κ δ υ σ γ' :=
  ⟨ran.ret, ran.mctx, world, ran.events⟩

section

variable (env : Env κ δ υ σ γ ρ) (conf : Conf κ δ)

theorem fillFromStrings_seeing (m : MailData σ) (r : Rule κ δ) (fuel : ℕ) :
    fillFromStrings env.seeing conf m r fuel = fillFromStrings env conf m r fuel := by
  induction fuel with
  | zero => rfl
  | succ fuel ih =>
    funext rsa chained
    unfold fillFromStrings
    rw [ih]
    rfl

theorem fillFromRule_seeing (m : MailData σ) (r : Rule κ δ) :
    fillFromRule env.seeing conf m r = fillFromRule env conf m r := by
  unfold fillFromRule
  rw [fillFromStrings_seeing]
  rfl

theorem nextExpritem_seeing (mctx : MailCtx κ δ υ σ) (r : Rule κ δ) :
    nextExpritem env.seeing conf mctx r = nextExpritem env conf mctx r := by
  unfold nextExpritem ruleMatched leafMatched
  simp only [fillFromRule_seeing]

theorem commandDone_seeing (mctx : MailCtx κ δ υ σ) (world : γ) (worlds : List γ)
    (ei : Expritem κ) (r : Rule κ δ) (msg : Msg ρ) :
    commandDone env.seeing conf mctx worlds ei r msg =
      (commandDone env conf mctx world ei r msg).into worlds := by
  unfold commandDone
  simp only [nextExpritem_seeing]
  split
  · rfl
  · split
    all_goals rfl

/-- A message for a mail on the match queue, which does not need the world. -/
theorem resumeMatch_seeing (mctx : MailCtx κ δ υ σ) (world : γ) (worlds : List γ) (msg : Msg ρ) :
    resumeMatch env.seeing conf mctx worlds msg =
      (resumeMatch env conf mctx world msg).into worlds := by
  unfold resumeMatch
  split
  · exact commandDone_seeing env conf mctx world worlds _ _ msg
  · rfl

/-- A condition finds the world once, unless it is a command. -/
theorem matchItem_seeing (cond : Cond κ) (matched : Bool) (m : MailData σ) (world : γ)
    (worlds : List γ) :
    matchItem env.seeing conf cond matched m
        ((Event.tried cond : Event κ δ υ).found world ++ worlds) =
      ((matchItem env conf cond matched m world).1, (matchItem env conf cond matched m world).2.1,
        worlds) := by
  cases cond with
  | command user data =>
    have hcommand : matchCommandMatch env.seeing conf user m = matchCommandMatch env conf user m :=
      rfl
    simp only [matchItem, hcommand, Event.found, List.nil_append]
    split <;> rfl
  | other data =>
    have htry : env.seeing.tryMatch data matched m (world :: worlds) =
        ((env.tryMatch data matched m world).1, (env.tryMatch data matched m world).2.1,
          worlds) := rfl
    simp only [matchItem, Event.found, List.singleton_append, htry]
    rcases env.tryMatch data matched m world with ⟨_ | _ | _, m', world'⟩ <;> rfl

theorem checkItem_events (mctx : MailCtx κ δ υ σ) (world : γ) (ei : Expritem κ) (r : Rule κ δ) :
    (checkItem env conf mctx world ei r).events =
      if skipped ei mctx.result then [] else [.tried ei.cond] := by
  unfold checkItem
  split
  · rfl
  · dsimp only
    split <;> rfl

/-- An item of an expression. -/
theorem checkItem_seeing (mctx : MailCtx κ δ υ σ) (world : γ) (worlds : List γ) (ei : Expritem κ)
    (r : Rule κ δ) :
    checkItem env.seeing conf mctx
        ((checkItem env conf mctx world ei r).found world ++ worlds) ei r =
      (checkItem env conf mctx world ei r).into worlds := by
  have hfound : (checkItem env conf mctx world ei r).found world =
      if skipped ei mctx.result then [] else (Event.tried ei.cond : Event κ δ υ).found world := by
    rw [Ran.found, checkItem_events]
    split <;> simp
  rw [hfound]
  unfold checkItem
  simp only [nextExpritem_seeing]
  by_cases hskip : skipped ei mctx.result = true
  · simp only [if_pos hskip, List.nil_append]
    rfl
  · simp only [if_neg hskip, matchItem_seeing]
    rcases matchItem env conf ei.cond mctx.matched mctx.mail world with ⟨res, m, world'⟩
    cases res <;> rfl

/-- Going on with the rules. -/
theorem matchRule_seeing (mctx : MailCtx κ δ υ σ) (world : γ) (worlds : List γ) :
    matchRule env.seeing conf mctx ((matchRule env conf mctx world).found world ++ worlds) =
      (matchRule env conf mctx world).into worlds := by
  by_cases hrule : mctx.rule = []
  · simp only [matchRule, hrule, Ran.found, List.flatMap_nil, List.nil_append, Ran.into]
  · obtain ⟨r, rs, hrule⟩ := List.exists_cons_of_ne_nil hrule
    by_cases hei : mctx.expritem = []
    · simp only [matchRule, hrule, hei]
      exact checkItem_seeing env conf
        { mctx with result := false, expritem := r.expr, rule := r :: rs } world worlds r.first r
    · obtain ⟨ei, eis, hei⟩ := List.exists_cons_of_ne_nil hei
      simp only [matchRule, hrule, hei]
      exact checkItem_seeing env conf mctx world worlds ei r

theorem resumeMatch_events (mctx : MailCtx κ δ υ σ) (world : γ) (msg : Msg ρ) :
    (resumeMatch env conf mctx world msg).events = [] := by
  unfold resumeMatch
  split
  · unfold commandDone
    split
    · rfl
    · dsimp only
      split <;> rfl
  · rfl

/-- A call of `mail_match`. -/
theorem mailMatch_seeing (mctx : MailCtx κ δ υ σ) (world : γ) (worlds : List γ)
    (msg : Option (Msg ρ)) :
    mailMatch env.seeing conf mctx ((mailMatch env conf mctx world msg).found world ++ worlds)
        msg = (mailMatch env conf mctx world msg).into worlds := by
  unfold mailMatch
  by_cases hmsgid : (mctx.wrap ' ').msgid ≠ 0
  · simp only [if_pos hmsgid]
    cases ownMsg (mctx.wrap ' ') msg with
    | none => rfl
    | some own =>
      have hfound : (resumeMatch env conf (mctx.wrap ' ') world own).found world = [] := by
        rw [Ran.found, resumeMatch_events, List.flatMap_nil]
      simp only [hfound, List.nil_append]
      exact resumeMatch_seeing env conf (mctx.wrap ' ') world worlds own
  · simp only [if_neg hmsgid]
    split
    · rfl
    · exact matchRule_seeing env conf (mctx.wrap ' ') world worlds

/-! ## Deliveries -/

/-- The start of an action. -/
theorem startAction_seeing (m : MailData σ) (world : γ) (worlds : List γ) (ruleidx : ℕ)
    (dctx : DeliverCtx δ υ) :
    startAction env.seeing m ((Event.started dctx : Event κ δ υ).found world ++ worlds) ruleidx
        dctx =
      ((startAction env m world ruleidx dctx).1, (startAction env m world ruleidx dctx).2.1,
        worlds) := by
  obtain ⟨action, type, data, udata⟩ := dctx
  cases type <;> rfl

theorem startFirst_seeing (mctx : MailCtx κ δ υ σ) (world : γ) (worlds : List γ) :
    startFirst env.seeing mctx ((startFirst env mctx world).found world ++ worlds) =
      (startFirst env mctx world).into worlds := by
  cases hq : mctx.dqueue with
  | nil => simp only [startFirst, hq, Ran.found, List.flatMap_nil, List.nil_append, Ran.into]
  | cons dctx q =>
    have hevents : (startFirst env mctx world).events = [.started dctx] := by
      simp only [startFirst, hq]
      split <;> rfl
    rw [Ran.found, hevents, List.flatMap_singleton]
    simp only [startFirst, hq, startAction_seeing]
    rcases startAction env mctx.mail world mctx.ruleidx dctx with ⟨ret, m, world'⟩
    cases ret <;> rfl

/-- A call of `mail_deliver`. -/
theorem mailDeliver_seeing (mctx : MailCtx κ δ υ σ) (world : γ) (worlds : List γ)
    (msg : Option (Msg ρ)) :
    mailDeliver env.seeing mctx ((mailDeliver env mctx world msg).found world ++ worlds) msg =
      (mailDeliver env mctx world msg).into worlds := by
  unfold mailDeliver
  by_cases hmsgid : (mctx.wrap '\n').msgid ≠ 0
  · simp only [if_pos hmsgid]
    cases ownMsg (mctx.wrap '\n') msg with
    | none => rfl
    | some own =>
      have hfinish : ∀ m dctx, finishAction env.seeing m dctx own = finishAction env m dctx own :=
        fun _ _ => rfl
      simp only [resumeDeliver, hfinish]
      cases hq : (mctx.wrap '\n').dqueue with
      | nil => rfl
      | cons dctx q =>
        dsimp only
        rcases finishAction env (mctx.wrap '\n').mail dctx own with ⟨ret, m⟩
        cases ret <;> rfl
  · simp only [if_neg hmsgid]
    exact startFirst_seeing env (mctx.wrap '\n') world worlds

end

/-! ## The story of a mail -/

/-- A mail as it was put on the queue, the states of the world that its calls have found, the
replies that were for it, and what has been done about it. -/
structure Story (κ δ υ σ γ ρ : Type) where
  mail : MailData σ
  found : List γ := []
  replies : List (Msg ρ) := []
  events : List (Event κ δ υ) := []

/-- A call is added to the story. -/
def Story.call (st : Story κ δ υ σ γ ρ) (this : MailCtx κ δ υ σ) (world : γ)
    (msg : Option (Msg ρ)) (ran : Ran κ δ υ σ γ) : Story κ δ υ σ γ ρ :=
  { st with
    found := st.found ++ ran.found world
    replies := st.replies ++ taken this msg
    events := st.events ++ ran.events }

/-- The mail of a story among calls of its own. -/
def Story.drive (st : Story κ δ υ σ γ ρ) (mctx : MailCtx κ δ υ σ) (place : Place)
    (worlds : List γ) : Drive κ δ υ σ (List γ) ρ where
  mctx := mctx
  world := worlds
  place := place
  events := st.events
  consumed := st.replies

/-- A mail is where the story says: whatever its calls find next, the rest of its evaluation is
the evaluation of all of the rules that finds before it what the story says. -/
def Story.Tells (st : Story κ δ υ σ γ ρ) (env : Env κ δ υ σ γ ρ) (conf : Conf κ δ)
    (mctx : MailCtx κ δ υ σ) (place : Place) : Prop :=
  ∀ worlds, (st.drive mctx place worlds).Follows env.seeing conf mctx.idx st.mail
    (st.found ++ worlds)

section

variable {env : Env κ δ υ σ γ ρ} {conf : Conf κ δ} {st : Story κ δ υ σ γ ρ}
  {this : MailCtx κ δ υ σ}

theorem tells_newCtx {idx : ℕ} (hidx : idx ≠ 0) (m : MailData σ) :
    Story.Tells { mail := m } env conf (newCtx conf idx m) .matchq :=
  fun worlds => start_follows hidx m worlds

/-- `mail_match` goes on with the story. -/
theorem tells_mailMatch (h : st.Tells env conf this .matchq) (world : γ) (msg : Option (Msg ρ)) :
    let ran := mailMatch env conf this world msg
    (st.call this world msg ran).Tells env conf ran.mctx
      (placeAfter .matchq ran.ret ran.mctx.done) := by
  intro ran worlds
  have hstep := step_follows (h (ran.found world ++ worlds)) msg
  have hcall : (st.drive this .matchq (ran.found world ++ worlds)).step env.seeing conf msg =
      (st.call this world msg ran).drive ran.mctx (placeAfter .matchq ran.ret ran.mctx.done)
        worlds := by
    simp only [Drive.step, Story.drive, Drive.after, ran, mailMatch_seeing]
    rfl
  rw [hcall, ← List.append_assoc] at hstep
  rw [show ran.mctx.idx = this.idx from mailMatch_idx this world msg]
  exact hstep

/-- `mail_deliver` goes on with the story. -/
theorem tells_mailDeliver (h : st.Tells env conf this .deliverq) (world : γ)
    (msg : Option (Msg ρ)) :
    let ran := mailDeliver env this world msg
    (st.call this world msg ran).Tells env conf ran.mctx
      (placeAfter .deliverq ran.ret ran.mctx.done) := by
  intro ran worlds
  have hstep := step_follows (h (ran.found world ++ worlds)) msg
  have hcall : (st.drive this .deliverq (ran.found world ++ worlds)).step env.seeing conf msg =
      (st.call this world msg ran).drive ran.mctx (placeAfter .deliverq ran.ret ran.mctx.done)
        worlds := by
    simp only [Drive.step, Story.drive, Drive.after, ran, mailDeliver_seeing]
    rfl
  rw [hcall, ← List.append_assoc] at hstep
  rw [show ran.mctx.idx = this.idx from mailDeliver_idx this world msg]
  exact hstep

/-- The story of a finished mail is an evaluation of the rules. -/
theorem Story.Tells.finished {mctx : MailCtx κ δ υ σ} {halt : Halt}
    (h : st.Tells env conf mctx (.finished halt)) :
    evalRuleset env.seeing conf st.mail st.found st.replies =
      (halt, mctx.sit [] [] st.events) := by
  have hend := (h []).2 []
  rw [List.append_nil] at hend
  rw [show st.replies = (st.drive mctx (.finished halt) []).consumed ++ [] by
    simp [Story.drive], ← hend]
  rfl

/-- What has been done about a mail is part of what an evaluation does. -/
theorem Story.Tells.events {mctx : MailCtx κ δ υ σ} {place : Place}
    (h : st.Tells env conf mctx place) (worlds : List γ) (replies : List (Msg ρ)) :
    st.events <+: (evalRuleset env.seeing conf st.mail (st.found ++ worlds)
      (st.replies ++ replies)).2.events := by
  have hend := (h worlds).2 replies
  have hpart : st.events <+:
      ((st.drive mctx place worlds).remaining env.seeing conf replies).2.events :=
    events_remaining (st.drive mctx place worlds) replies
  rw [hend] at hpart
  exact hpart

end

end Fdm.Rules
