import Fdm.Rules.Defs

/-!
# What rules mean

The rules as the manual describes them: they are tried from top to bottom, the items of an
expression from left to right at one precedence, the rules inside of a rule when it matches, and
a rule with actions ends the evaluation after them unless it has `continue`. Nothing is put off
here: where the parent has to be asked, its answer is the next of a list of replies.
-/

namespace Fdm.Rules

variable {κ δ υ σ γ ρ : Type}

/-- Where an evaluation is. -/
structure Sit (κ δ υ σ γ ρ : Type) where
  mail : MailData σ
  world : γ
  matched : Bool := false
  replies : List (Msg ρ)
  events : List (Event κ δ υ) := []

/-- How an evaluation ends: at a rule without `continue`, behind the last rule, with an error,
or for want of a reply. -/
inductive Halt
  | stopped
  | unmatched
  | error
  | fatal
  | waiting
deriving DecidableEq, Repr

/-- What comes of a part of an evaluation: a value, unless everything ends there. -/
abbrev Out (κ δ υ σ γ ρ : Type) (α : Type) : Type := Except Halt α × Sit κ δ υ σ γ ρ

/-- Go on with what comes of a part. -/
def Out.andThen {α β : Type} (o : Out κ δ υ σ γ ρ α)
    (f : α → Sit κ δ υ σ γ ρ → Out κ δ υ σ γ ρ β) : Out κ δ υ σ γ ρ β :=
  match o with
  | (.error h, s) => (.error h, s)
  | (.ok a, s) => f a s

/-- The folded headers are joined with a character. -/
def Sit.wrap (ch : Char) (s : Sit κ δ υ σ γ ρ) : Sit κ δ υ σ γ ρ :=
  { s with mail := s.mail.setWrapped ch }

/-- Wait for the parent, with the folded headers joined with a character. -/
def reply (ch : Char) (s : Sit κ δ υ σ γ ρ) : Out κ δ υ σ γ ρ (Msg ρ) :=
  let s := s.wrap ch
  match s.replies with
  | [] => (.error .waiting, s)
  | msg :: replies => (.ok msg, { s with replies := replies })

section

variable (env : Env κ δ υ σ γ ρ) (conf : Conf κ δ)

/-! ## Conditions -/

/-- What the parent says about a command. -/
def evalReply (msg : Msg ρ) (s : Sit κ δ υ σ γ ρ) : Out κ δ υ σ γ ρ Bool :=
  if msg.type ≠ .done then (.error .fatal, s)
  else
    let s := { s with mail := { s.mail with rest := env.receiveTags msg.body s.mail.rest } }
    match msg.error with
    | 0 => (.ok false, s)
    | 1 => (.ok true, s)
    | 2 => (.error .error, s)
    | _ => (.error .fatal, s)

/-- A condition. -/
def evalCond (cond : Cond κ) (s : Sit κ δ υ σ γ ρ) : Out κ δ υ σ γ ρ Bool :=
  let (res, m, world) := matchItem env conf cond s.matched s.mail s.world
  let s := { s with mail := m, world := world, events := s.events ++ [.tried cond] }
  match res with
  | .matchError => (.error .error, s)
  | .matchTrue => (.ok true, s)
  | .matchFalse => (.ok false, s)
  | .matchParent => (reply ' ' s).andThen (evalReply env)

/-- The items of an expression behind others with some result: `and` needs a result that is
true, and `or` one that is false. -/
def evalItems : List (Expritem κ) → Bool → Sit κ δ υ σ γ ρ → Out κ δ υ σ γ ρ Bool
  | [], result, s => (.ok result, s)
  | ei :: eis, result, s =>
    let s := s.wrap ' '
    match ei.op, result with
    | .opAnd, false => evalItems eis false s
    | .opOr, true => evalItems eis true s
    | _, _ =>
      (evalCond env conf ei.cond s).andThen fun this s => evalItems eis (this != ei.inverted) s

/-! ## Actions -/

/-- The answer of the parent to an action. -/
def evalDone (dctx : DeliverCtx δ υ) (msg : Msg ρ) (s : Sit κ δ υ σ γ ρ) :
    Out κ δ υ σ γ ρ Unit :=
  match finishAction env s.mail dctx msg with
  | (.actionError, m) => (.error .error, { s with mail := m })
  | (_, m) => (.ok (), { s with mail := m })

/-- An action of a rule. -/
def evalAction (ruleidx : ℕ) (dctx : DeliverCtx δ υ) (s : Sit κ δ υ σ γ ρ) :
    Out κ δ υ σ γ ρ Unit :=
  let s := s.wrap '\n'
  let s : Sit κ δ υ σ γ ρ := { s with events := s.events ++ [.started dctx] }
  match startAction env s.mail s.world ruleidx dctx with
  | (.actionError, m, world) => (.error .error, { s with mail := m, world := world })
  | (.actionDone, m, world) => (.ok (), { s with mail := m, world := world })
  | (.actionParent, m, world) =>
    (reply '\n' { s with mail := m, world := world }).andThen (evalDone env dctx)

/-- The actions of a rule. -/
def evalActions (ruleidx : ℕ) :
    List (DeliverCtx δ υ) → Sit κ δ υ σ γ ρ → Out κ δ υ σ γ ρ Unit
  | [], s => (.ok (), s.wrap '\n')
  | dctx :: q, s => (evalAction env ruleidx dctx s).andThen fun _ s => evalActions ruleidx q s

/-! ## Rules -/

/-- The end of a rule without nested rules. -/
def evalStop (stop : Bool) (s : Sit κ δ υ σ γ ρ) : Out κ δ υ σ γ ρ Unit :=
  if stop then (.error .stopped, s.wrap ' ') else (.ok (), s)

/-- A rule without nested rules that matched. -/
def evalLeaf (r : Rule κ δ) (s : Sit κ δ υ σ γ ρ) : Out κ δ υ σ γ ρ Unit :=
  let s := { s with matched := true }
  match fillFromRule env conf s.mail r with
  | none => (.error .error, s)
  | some q =>
    let actions := if r.lambda.isSome ∨ r.actions ≠ [] then evalActions env r.idx q s
      else (.ok (), s)
    actions.andThen fun _ s => evalStop r.stop s

mutual

/-- A rule. -/
def evalRule : Rule κ δ → Sit κ δ υ σ γ ρ → Out κ δ υ σ γ ρ Unit
  | .mk idx first rest users cont lambda actions rules, s =>
    (evalItems env conf (first :: rest) false s).andThen fun result s =>
      if result then
        match rules with
        | [] => evalLeaf env conf (.mk idx first rest users cont lambda actions []) s
        | r :: rs => evalRules (r :: rs) s
      else (.ok (), s)

/-- Rules, one after the other. -/
def evalRules : List (Rule κ δ) → Sit κ δ υ σ γ ρ → Out κ δ υ σ γ ρ Unit
  | [], s => (.ok (), s)
  | r :: rs, s => (evalRule r s).andThen fun _ s => evalRules rs s

end

/-- Behind the last rule. -/
def evalEnd (o : Out κ δ υ σ γ ρ Unit) : Halt × Sit κ δ υ σ γ ρ :=
  match o with
  | (.error h, s) => (h, s)
  | (.ok (), s) => (.unmatched, { s with mail := unmatched conf (s.mail.setWrapped ' ') })

/-- All of the rules, with the replies of the parent in turn. -/
def evalRuleset (m : MailData σ) (world : γ) (replies : List (Msg ρ)) :
    Halt × Sit κ δ υ σ γ ρ :=
  evalEnd conf
    (evalRules env conf conf.rules { mail := m, world := world, replies := replies })

end

end Fdm.Rules
