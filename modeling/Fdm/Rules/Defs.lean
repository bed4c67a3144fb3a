import Fdm.Regexp

/-!
# Rules

`mail-state.c`: a mail goes through the rules one expression item at a time and through the
actions of a rule that matched one action at a time, so that it can wait for the parent in
between. What the match functions, the deliveries and the expansion of templates do to the mail
and to the world around it is left to an `Env`.
-/

namespace Fdm.Rules

open Regexp (MatchResult)

/-- A string of the configuration in which `replacestr` expands `%` sequences. -/
abbrev Replstr : Type := List Char

/-! ## Rules and actions -/

/-- `enum exprop`. -/
inductive Exprop
  | opNone
  | opAnd
  | opOr
deriving DecidableEq, Repr

/-- `ei->match` and `ei->data`: a `match_command_data` with its user, or another condition. -/
inductive Cond (κ : Type)
  | command (user : Option Replstr) (data : κ)
  | other (data : κ)
deriving DecidableEq, Repr

/-- `struct expritem`. -/
structure Expritem (κ : Type) where
  cond : Cond κ
  op : Exprop := .opNone
  inverted : Bool := false
deriving DecidableEq, Repr

/-- `enum delivertype`. -/
inductive Delivertype
  | inchild
  | asuser
  | wrback
deriving DecidableEq, Repr

/-- `struct actitem`: a delivery, or the names of further actions. -/
inductive Actitem (δ : Type)
  | deliver (idx : ℕ) (type : Delivertype) (data : δ)
  | chain (actions : List Replstr)
deriving DecidableEq, Repr

/-- `struct action`. -/
structure Action (δ : Type) where
  name : List Char
  users : Option (List Replstr)
  list : List (Actitem δ)
deriving DecidableEq, Repr

/-- `struct rule`. The expression is its first item and the others; `cont` is the keyword
`continue`, which a rule with an empty list of nested rules has as well. -/
inductive Rule (κ δ : Type)
  | mk (idx : ℕ) (first : Expritem κ) (rest : List (Expritem κ)) (users : Option (List Replstr))
      (cont : Bool) (lambda : Option (Action δ)) (actions : List Replstr)
      (rules : List (Rule κ δ))

namespace Rule

variable {κ δ : Type}

def idx : Rule κ δ → ℕ
  | mk idx _ _ _ _ _ _ _ => idx

/-- `TAILQ_FIRST(rule->expr)`. -/
def first : Rule κ δ → Expritem κ
  | mk _ first _ _ _ _ _ _ => first

/-- `rule->expr`. -/
def expr : Rule κ δ → List (Expritem κ)
  | mk _ first rest _ _ _ _ _ => first :: rest

/-- What follows the first item. -/
def more : Rule κ δ → List (Expritem κ)
  | mk _ _ rest _ _ _ _ _ => rest

theorem expr_eq (r : Rule κ δ) : r.expr = r.first :: r.more := by
  cases r
  rfl

def users : Rule κ δ → Option (List Replstr)
  | mk _ _ _ users _ _ _ _ => users

def lambda : Rule κ δ → Option (Action δ)
  | mk _ _ _ _ _ lambda _ _ => lambda

def actions : Rule κ δ → List Replstr
  | mk _ _ _ _ _ _ actions _ => actions

def rules : Rule κ δ → List (Rule κ δ)
  | mk _ _ _ _ _ _ _ rules => rules

/-- `rule->stop`: set without `continue`, and never on a rule with nested rules. -/
def stop : Rule κ δ → Bool
  | mk _ _ _ _ cont _ _ rules => !cont && rules.isEmpty

end Rule

/-! ## Mails and messages -/

/-- `struct mail`; `σ` is what the rules do not look at themselves (tags, matches, the body). -/
structure MailData (σ : Type) where
  data : List Char
  wrapped : List ℕ := []
  wrapchar : Char := '\x00'
  decision : Decision := .drop
  rest : σ
deriving DecidableEq, Repr

/-- Put a character at each of some offsets. -/
def putAll (ch : Char) (offs : List ℕ) (data : List Char) : List Char :=
  offs.foldl (fun data off => data.set off ch) data

/-- `set_wrapped`. -/
def MailData.setWrapped {σ : Type} (ch : Char) (m : MailData σ) : MailData σ :=
  if m.wrapchar = ch then m else { m with wrapchar := ch, data := putAll ch m.wrapped m.data }

/-- `enum msgtype`. -/
inductive Msgtype
  | action
  | exit
  | done
  | command
deriving DecidableEq, Repr

/-- `struct msg`; `ρ` is what comes with it: tags and a mail. -/
structure Msg (ρ : Type) where
  id : ℕ
  type : Msgtype := .done
  error : ℕ := 0
  body : ρ
deriving DecidableEq, Repr

/-- `struct deliver_ctx`. -/
structure DeliverCtx (δ υ : Type) where
  action : List Char
  type : Delivertype
  data : δ
  udata : υ
deriving DecidableEq, Repr

/-- What the functions of this file do for others to see: run a match function, or start a
delivery. -/
inductive Event (κ δ υ : Type)
  | tried (cond : Cond κ)
  | started (dctx : DeliverCtx δ υ)
deriving DecidableEq, Repr

/-- The functions that are called. `υ` is `struct userdata`, and `γ` everything outside of the
mail that they work on. -/
structure Env (κ δ υ σ γ ρ : Type) where
  /-- `ei->match->match`, given `mctx->matched`; `none` is `MATCH_ERROR`. -/
  tryMatch : κ → Bool → MailData σ → γ → Option Bool × MailData σ × γ
  /-- `ti->deliver->deliver`. -/
  deliver : δ → υ → MailData σ → γ → Bool × MailData σ × γ
  replacestr : Replstr → MailData σ → List Char
  userLookup : List Char → Option υ
  actionMatch : List Char → List Char → Bool
  addTag : String → List Char → σ → σ
  updateTags : υ → σ → σ
  resetTags : σ → σ
  /-- The tags of a message in the place of the mail's, if it has any. -/
  receiveTags : ρ → σ → σ
  /-- `mail_receive`, `trim_from` and `fill_wrapped`. -/
  receiveMail : ρ → MailData σ → Option (MailData σ)

/-- The settings that are read. -/
structure Conf (κ δ : Type) where
  rules : List (Rule κ δ)
  actionList : List (Action δ) := []
  defUser : Replstr := []
  cmdUser : List Char := []
  accountUsers : Option (List Replstr) := none
  implAct : Option Decision := none

/-- `struct mail_ctx`. A pointer into a list of rules or items is the list from there on, and
NULL is the empty list. The stack has its last rule first. -/
structure MailCtx (κ δ υ σ : Type) where
  done : Bool := false
  msgid : ℕ := 0
  /-- `mctx->mail->idx` -/
  idx : ℕ
  mail : MailData σ
  ruleidx : ℕ := 0
  rule : List (Rule κ δ)
  stack : List (List (Rule κ δ)) := []
  expritem : List (Expritem κ) := []
  result : Bool := false
  matched : Bool := false
  dqueue : List (DeliverCtx δ υ) := []

/-- `set_wrapped` on the mail. -/
def MailCtx.wrap {κ δ υ σ : Type} (ch : Char) (mctx : MailCtx κ δ υ σ) : MailCtx κ δ υ σ :=
  { mctx with mail := mctx.mail.setWrapped ch }

section

variable {κ δ υ σ : Type} (ch : Char) (mctx : MailCtx κ δ υ σ)

@[simp] theorem wrap_done : (mctx.wrap ch).done = mctx.done := rfl
@[simp] theorem wrap_msgid : (mctx.wrap ch).msgid = mctx.msgid := rfl
@[simp] theorem wrap_idx : (mctx.wrap ch).idx = mctx.idx := rfl
@[simp] theorem wrap_rule : (mctx.wrap ch).rule = mctx.rule := rfl
@[simp] theorem wrap_stack : (mctx.wrap ch).stack = mctx.stack := rfl
@[simp] theorem wrap_expritem : (mctx.wrap ch).expritem = mctx.expritem := rfl
@[simp] theorem wrap_result : (mctx.wrap ch).result = mctx.result := rfl
@[simp] theorem wrap_dqueue : (mctx.wrap ch).dqueue = mctx.dqueue := rfl

end

/-- What `mail_match` and `mail_deliver` return. -/
inductive MailRet
  | mailContinue
  | mailDeliver
  | mailMatch
  | mailError
  | mailBlocked
  | mailDone
  | fatal
deriving DecidableEq, Repr

variable {κ δ υ σ γ ρ : Type}

/-- What comes of a call: its result, the mail context, the world, and what it did. -/
structure Ran (κ δ υ σ γ : Type) where
  ret : MailRet
  mctx : MailCtx κ δ υ σ
  world : γ
  events : List (Event κ δ υ) := []

/-- The mail context that `fetch_enqueue` makes. -/
def newCtx (conf : Conf κ δ) (idx : ℕ) (m : MailData σ) : MailCtx κ δ υ σ :=
  { idx := idx, mail := m, rule := conf.rules }

/-! ## The actions of a rule -/

/-- `MAXACTIONCHAIN`. -/
def maxActionChain : ℕ := 5

/-- Go through a list with the counter `chained`, and put together what is queued. -/
def collect {α β : Type} (f : α → ℕ → Option (ℕ × List β)) : List α → ℕ → Option (ℕ × List β)
  | [], chained => some (chained, [])
  | a :: as, chained =>
    (f a chained).bind fun (chained, q) =>
      (collect f as chained).map fun (chained, q') => (chained, q ++ q')

section

variable (env : Env κ δ υ σ γ ρ) (conf : Conf κ δ)

/-- `find_delivery_users`. -/
def findDeliveryUsers (r : Rule κ δ) (t : Option (Action δ)) : List Replstr :=
  match r.users with
  | some users => users
  | none =>
    match t.bind Action.users with
    | some users => users
    | none =>
      match conf.accountUsers with
      | some users => users
      | none => [conf.defUser]

/-- `fill_from_action`; the first argument is `fill_from_strings`. -/
def fillFromAction (chain : List Replstr → ℕ → Option (ℕ × List (DeliverCtx δ υ)))
    (m : MailData σ) (t : Action δ) :
    List Replstr → ℕ → Option (ℕ × List (DeliverCtx δ υ)) :=
  collect fun user chained =>
    let user := env.replacestr user m
    if user = [] then none
    else
      (env.userLookup user).bind fun udata =>
        collect (fun ti chained =>
          match ti with
          | .chain actions => chain actions chained
          | .deliver _ type data => some (chained, [⟨t.name, type, data, udata⟩]))
          t.list chained

/-- `fill_from_string`. -/
def fillFromString (chain : List Replstr → ℕ → Option (ℕ × List (DeliverCtx δ υ)))
    (m : MailData σ) (r : Rule κ δ) (rs : Replstr) (chained : ℕ) :
    Option (ℕ × List (DeliverCtx δ υ)) :=
  let s := env.replacestr rs m
  let ta := conf.actionList.filter fun t => env.actionMatch s t.name
  if ta = [] then none
  else
    collect (fun t => fillFromAction env chain m t (findDeliveryUsers conf r (some t))) ta chained

/-- `fill_from_strings`; the first argument bounds the depth, and is never less than
`chained`. -/
def fillFromStrings (m : MailData σ) (r : Rule κ δ) :
    ℕ → List Replstr → ℕ → Option (ℕ × List (DeliverCtx δ υ))
  | 0, _, _ => none
  | fuel + 1, rsa, chained =>
    let chained := chained - 1
    if chained = 0 then none
    else collect (fillFromString env conf (fillFromStrings m r fuel) m r) rsa chained

/-- What a rule that matched puts on the delivery queue. -/
def fillFromRule (m : MailData σ) (r : Rule κ δ) : Option (List (DeliverCtx δ υ)) :=
  let chain := fillFromStrings env conf m r maxActionChain
  let lambda :=
    match r.lambda with
    | none => some []
    | some t =>
      (fillFromAction env chain m t (findDeliveryUsers conf r none) maxActionChain).map Prod.snd
  let actions := if r.actions = [] then some [] else (chain r.actions maxActionChain).map Prod.snd
  lambda.bind fun q => actions.map fun q' => q ++ q'

/-! ## Matching -/

/-- `apply_result`. -/
def applyResult (ei : Expritem κ) (result this : Bool) : Bool :=
  let this := if ei.inverted then !this else this
  match ei.op with
  | .opNone => this
  | .opOr => result || this
  | .opAnd => result && this

/-- Whether an item is skipped: an `and` with the result false, or an `or` with it true. -/
def skipped (ei : Expritem κ) (result : Bool) : Bool :=
  match ei.op with
  | .opNone => false
  | .opAnd => !result
  | .opOr => result

/-- `match_command_match`: `true` when the parent has been asked. -/
def matchCommandMatch (user : Option Replstr) (m : MailData σ) : Bool × MailData σ :=
  let m := m.setWrapped '\n'
  let user := match user with
    | none => conf.cmdUser
    | some user => env.replacestr user m
  match env.userLookup user with
  | none => (false, m)
  | some ud => (true, { m with rest := env.resetTags (env.updateTags ud m.rest) })

/-- `ei->match->match(mctx, ei)`. -/
def matchItem (cond : Cond κ) (matched : Bool) (m : MailData σ) (world : γ) :
    MatchResult × MailData σ × γ :=
  match cond with
  | .command user _ =>
    match matchCommandMatch env conf user m with
    | (true, m) => (.matchParent, m, world)
    | (false, m) => (.matchError, m, world)
  | .other data =>
    match env.tryMatch data matched m world with
    | (none, m, world) => (.matchError, m, world)
    | (some true, m, world) => (.matchTrue, m, world)
    | (some false, m, world) => (.matchFalse, m, world)

/-- Move up the stack while there are no more rules. -/
def popRules : List (Rule κ δ) → List (List (Rule κ δ)) → List (Rule κ δ) × List (List (Rule κ δ))
  | [], r :: stack => popRules r.tail stack
  | rule, stack => (rule, stack)

/-- From `next_rule` on. -/
def nextRule (mctx : MailCtx κ δ υ σ) (r : Rule κ δ) : MailCtx κ δ υ σ :=
  let popped := popRules mctx.rule.tail mctx.stack
  { mctx with ruleidx := r.idx, rule := popped.1, stack := popped.2 }

/-- A rule without nested rules that matched. -/
def leafMatched (mctx : MailCtx κ δ υ σ) (r : Rule κ δ) : MailRet × MailCtx κ δ υ σ :=
  let mctx := { mctx with matched := true }
  match fillFromRule env conf mctx.mail r with
  | none => (.mailError, mctx)
  | some q =>
    let ret := if r.lambda.isSome ∨ r.actions ≠ [] then .mailDeliver else .mailContinue
    (ret, nextRule { mctx with dqueue := mctx.dqueue ++ q } r)

/-- A rule that matched. -/
def ruleMatched (mctx : MailCtx κ δ υ σ) (r : Rule κ δ) : MailRet × MailCtx κ δ υ σ :=
  let mctx := { mctx with done := mctx.done || r.stop }
  if r.rules ≠ [] then
    (.mailContinue, { mctx with stack := mctx.rule :: mctx.stack, rule := r.rules })
  else leafMatched env conf mctx r

/-- From `next_expritem` on. -/
def nextExpritem (mctx : MailCtx κ δ υ σ) (r : Rule κ δ) : MailRet × MailCtx κ δ υ σ :=
  let mctx := { mctx with expritem := mctx.expritem.tail }
  if mctx.expritem ≠ [] then (.mailContinue, mctx)
  else if !mctx.result then (.mailContinue, nextRule mctx r)
  else ruleMatched env conf mctx r

/-- The answer of the parent to a `MSG_COMMAND`. -/
def commandDone (mctx : MailCtx κ δ υ σ) (world : γ) (ei : Expritem κ) (r : Rule κ δ)
    (msg : Msg ρ) : Ran κ δ υ σ γ :=
  if msg.type ≠ .done then ⟨.fatal, mctx, world, []⟩
  else
    let mail := { mctx.mail with rest := env.receiveTags msg.body mctx.mail.rest }
    let mctx := { mctx with msgid := 0, mail := mail }
    let answered (this : Bool) : Ran κ δ υ σ γ :=
      let mctx := { mctx with result := applyResult ei mctx.result this }
      let (ret, mctx) := nextExpritem env conf mctx r
      ⟨ret, mctx, world, []⟩
    match msg.error with
    | 0 => answered false
    | 1 => answered true
    | 2 => ⟨.mailError, mctx, world, []⟩
    | _ => ⟨.fatal, mctx, world, []⟩

/-- Check an expression item and adjust the result. -/
def checkItem (mctx : MailCtx κ δ υ σ) (world : γ) (ei : Expritem κ) (r : Rule κ δ) :
    Ran κ δ υ σ γ :=
  if skipped ei mctx.result then
    let (ret, mctx) := nextExpritem env conf mctx r
    ⟨ret, mctx, world, []⟩
  else
    let (res, m, world) := matchItem env conf ei.cond mctx.matched mctx.mail world
    let mctx := { mctx with mail := m }
    let events := [.tried ei.cond]
    let answered (this : Bool) : Ran κ δ υ σ γ :=
      let mctx := { mctx with result := applyResult ei mctx.result this }
      let (ret, mctx) := nextExpritem env conf mctx r
      ⟨ret, mctx, world, events⟩
    match res with
    | .matchError => ⟨.mailError, mctx, world, events⟩
    | .matchParent => ⟨.mailBlocked, { mctx with msgid := mctx.idx }, world, events⟩
    | .matchTrue => answered true
    | .matchFalse => answered false

/-- The end of the ruleset: the decision of `unmatched-mail`. -/
def unmatched (m : MailData σ) : MailData σ :=
  { m with decision := conf.implAct.getD .keep }

/-- A message that a mail waits for has come in. -/
def resumeMatch (mctx : MailCtx κ δ υ σ) (world : γ) (msg : Msg ρ) : Ran κ δ υ σ γ :=
  match mctx.expritem, mctx.rule with
  | ei :: _, r :: _ => commandDone env conf mctx world ei r msg
  | _, _ => ⟨.fatal, mctx, world, []⟩

/-- Go on with the rules. -/
def matchRule (mctx : MailCtx κ δ υ σ) (world : γ) : Ran κ δ υ σ γ :=
  match mctx.rule with
  | [] => ⟨.mailDone, { mctx with mail := unmatched conf mctx.mail }, world, []⟩
  | r :: _ =>
    match mctx.expritem with
    | [] => checkItem env conf { mctx with result := false, expritem := r.expr } world r.first r
    | ei :: _ => checkItem env conf mctx world ei r

/-- The message of a call, when its id is the one a mail waits for. -/
def ownMsg (mctx : MailCtx κ δ υ σ) (msg : Option (Msg ρ)) : Option (Msg ρ) :=
  msg.filter fun msg => msg.id = mctx.msgid

/-- The form of the lines does not say whose message it is. -/
@[simp] theorem ownMsg_wrap (ch : Char) (mctx : MailCtx κ δ υ σ) (msg : Option (Msg ρ)) :
    ownMsg (mctx.wrap ch) msg = ownMsg mctx msg := rfl

/-- `mail_match`. -/
def mailMatch (mctx : MailCtx κ δ υ σ) (world : γ) (msg : Option (Msg ρ)) : Ran κ δ υ σ γ :=
  let mctx := mctx.wrap ' '
  if mctx.msgid ≠ 0 then
    match ownMsg mctx msg with
    | none => ⟨.mailBlocked, mctx, world, []⟩
    | some msg => resumeMatch env conf mctx world msg
  else if mctx.done then ⟨.mailDone, mctx, world, []⟩
  else matchRule env conf mctx world

/-! ## Delivering -/

/-- What `start_action` and `finish_action` return. -/
inductive ActionRet
  | actionDone
  | actionError
  | actionParent
deriving DecidableEq, Repr

/-- `start_action`. -/
def startAction (m : MailData σ) (world : γ) (ruleidx : ℕ) (dctx : DeliverCtx δ υ) :
    ActionRet × MailData σ × γ :=
  let rest := env.addTag "rule" (toString ruleidx).toList (env.addTag "action" dctx.action m.rest)
  let m := { m with rest := env.updateTags dctx.udata rest }
  match dctx.type with
  | .inchild =>
    let (success, m, world) := env.deliver dctx.data dctx.udata m world
    (if success then .actionDone else .actionError,
      { m with rest := env.resetTags m.rest }, world)
  | _ => (.actionParent, { m with rest := env.resetTags m.rest }, world)

/-- `finish_action`. -/
def finishAction (m : MailData σ) (dctx : DeliverCtx δ υ) (msg : Msg ρ) :
    ActionRet × MailData σ :=
  let m := { m with rest := env.receiveTags msg.body m.rest }
  if msg.error ≠ 0 then (.actionError, m)
  else if dctx.type ≠ .wrback then (.actionDone, m)
  else
    match env.receiveMail msg.body m with
    | none => (.actionError, m)
    | some m => (.actionDone, m)

/-- A message that a mail waits for has come in. -/
def resumeDeliver (mctx : MailCtx κ δ υ σ) (world : γ) (msg : Msg ρ) : Ran κ δ υ σ γ :=
  match mctx.dqueue with
  | [] => ⟨.fatal, mctx, world, []⟩
  | dctx :: q =>
    match finishAction env mctx.mail dctx msg with
    | (.actionError, m) => ⟨.mailError, { mctx with msgid := 0, mail := m }, world, []⟩
    | (_, m) => ⟨.mailContinue, { mctx with msgid := 0, mail := m, dqueue := q }, world, []⟩

/-- Start the first action of the queue. -/
def startFirst (mctx : MailCtx κ δ υ σ) (world : γ) : Ran κ δ υ σ γ :=
  match mctx.dqueue with
  | [] => ⟨.mailMatch, mctx, world, []⟩
  | dctx :: q =>
    match startAction env mctx.mail world mctx.ruleidx dctx with
    | (.actionError, m, world) => ⟨.mailError, { mctx with mail := m }, world, [.started dctx]⟩
    | (.actionParent, m, world) =>
      ⟨.mailBlocked, { mctx with mail := m, msgid := mctx.idx }, world, [.started dctx]⟩
    | (.actionDone, m, world) =>
      ⟨.mailContinue, { mctx with mail := m, dqueue := q }, world, [.started dctx]⟩

/-- `mail_deliver`. -/
def mailDeliver (mctx : MailCtx κ δ υ σ) (world : γ) (msg : Option (Msg ρ)) : Ran κ δ υ σ γ :=
  let mctx := mctx.wrap '\n'
  if mctx.msgid ≠ 0 then
    match ownMsg mctx msg with
    | none => ⟨.mailBlocked, mctx, world, []⟩
    | some msg => resumeDeliver env mctx world msg
  else startFirst env mctx world

end

end Fdm.Rules
