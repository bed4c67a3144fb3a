import Fdm.Lib.Budget
import Fdm.Rules.Defs

/-!
# Chained actions

How a rule fills the delivery queue, with the reasons why it fails. The counter that is to end
cyclic references is shared by all of the references of a rule: it counts the lists of actions
that are gone through, not how deep they are nested.
-/

namespace Fdm.Rules.Chains

open Lib.Budget

variable {κ δ υ σ γ ρ : Type}

/-! ## The code -/

/-- Why the queue is not filled. The last one is a bound of this model on the depth of the calls
that is too low, which `fillFromRule_fuel` excludes. -/
inductive FillError
  | tooMany
  | noActions
  | emptyUser
  | badUser
  | fuel
deriving DecidableEq, Repr

/-- What is left of `chained`, and what is added to the queue. -/
abbrev Filled (δ υ : Type) : Type := Except FillError (ℕ × List (DeliverCtx δ υ))

section

variable (env : Env κ δ υ σ γ ρ) (conf : Conf κ δ) (m : MailData σ) (r : Rule κ δ)

/-- The user of a delivery. -/
def lookupUser (user : Replstr) : Except FillError υ :=
  let user := env.replacestr user m
  if user = [] then .error .emptyUser
  else
    match env.userLookup user with
    | none => .error .badUser
    | some udata => .ok udata

/-- `fill_from_action`; the first argument is `fill_from_strings`. -/
def fillFromAction (chain : List Replstr → ℕ → Filled δ υ) (t : Action δ) :
    List Replstr → ℕ → Filled δ υ :=
  gather fun user chained =>
    (lookupUser env m user).bind fun udata =>
      gather (fun ti chained =>
        match ti with
        | .chain actions => chain actions chained
        | .deliver _ type data => .ok (chained, [⟨t.name, type, data, udata⟩]))
        t.list chained

/-- `match_actions`. -/
def matchActions (rs : Replstr) : List (Action δ) :=
  conf.actionList.filter fun t => env.actionMatch (env.replacestr rs m) t.name

/-- `fill_from_string`. -/
def fillFromString (chain : List Replstr → ℕ → Filled δ υ) (rs : Replstr) (chained : ℕ) :
    Filled δ υ :=
  if matchActions env conf m rs = [] then .error .noActions
  else
    gather (fun t => fillFromAction env m chain t (findDeliveryUsers conf r (some t)))
      (matchActions env conf m rs) chained

/-- `fill_from_strings`. -/
def fillFromStrings : ℕ → List Replstr → ℕ → Filled δ υ
  | 0, _, _ => .error .fuel
  | fuel + 1, rsa, chained =>
    let chained := chained - 1
    if chained = 0 then .error .tooMany
    else gather (fillFromString env conf m r (fillFromStrings fuel)) rsa chained

/-- The part of `mail_match` that fills the queue. -/
def fillFromRule : Except FillError (List (DeliverCtx δ υ)) :=
  let chain := fillFromStrings env conf m r maxActionChain
  let lambda : Except FillError (List (DeliverCtx δ υ)) :=
    match r.lambda with
    | none => .ok []
    | some t =>
      (fillFromAction env m chain t (findDeliveryUsers conf r none) maxActionChain).map Prod.snd
  let actions : Except FillError (List (DeliverCtx δ υ)) :=
    if r.actions = [] then .ok [] else (chain r.actions maxActionChain).map Prod.snd
  lambda.bind fun q => actions.map fun q' => q ++ q'

/-! ## The tree of actions -/

/-- What an action delivers, for each user in turn; the lists of names in it are gone through
by `chain`. -/
def walkAction (chain : List Replstr → Walk FillError (DeliverCtx δ υ)) (t : Action δ) :
    List Replstr → Walk FillError (DeliverCtx δ υ) :=
  Walk.all fun user =>
    match lookupUser env m user with
    | .error e => ⟨0, .error e⟩
    | .ok udata =>
      Walk.all (fun ti =>
        match ti with
        | .chain actions => chain actions
        | .deliver _ type data => ⟨0, .ok [⟨t.name, type, data, udata⟩]⟩) t.list

/-- What the actions that a name matches deliver. -/
def walkString (chain : List Replstr → Walk FillError (DeliverCtx δ υ)) (rs : Replstr) :
    Walk FillError (DeliverCtx δ υ) :=
  if matchActions env conf m rs = [] then ⟨0, .error .noActions⟩
  else
    Walk.all (fun t => walkAction env m chain t (findDeliveryUsers conf r (some t)))
      (matchActions env conf m rs)

/-- The tree of actions below a list of names, from left to right: it uses one unit for each list,
and so many lists may be nested; there are too many when another one is. -/
def walkStrings : ℕ → List Replstr → Walk FillError (DeliverCtx δ υ)
  | 0, _ => ⟨1, .error .tooMany⟩
  | n + 1, rsa =>
    let w := Walk.all (walkString env conf m r (walkStrings n)) rsa
    ⟨w.used + 1, w.result⟩

/-- The tree of the action of a rule that has no name. -/
def walkLambda : Walk FillError (DeliverCtx δ υ) :=
  match r.lambda with
  | none => ⟨0, .ok []⟩
  | some t =>
    walkAction env m (walkStrings env conf m r (maxActionChain - 1)) t (findDeliveryUsers conf r none)

/-- The tree of the actions that a rule names. -/
def walkActions : Walk FillError (DeliverCtx δ υ) :=
  if r.actions = [] then ⟨0, .ok []⟩
  else walkStrings env conf m r (maxActionChain - 1) r.actions

/-- The leaves of the action tree of a rule. -/
def leaves : Except FillError (List (DeliverCtx δ υ)) :=
  (walkLambda env conf m r).result.bind fun q =>
    (walkActions env conf m r).result.map fun q' => q ++ q'

/-- A list of names refers to another one. -/
def Refers (rsa rsa' : List Replstr) : Prop :=
  ∃ rs ∈ rsa, ∃ t ∈ matchActions env conf m rs,
    findDeliveryUsers conf r (some t) ≠ [] ∧ Actitem.chain rsa' ∈ t.list

/-- A sequence of so many lists, each of which refers to the next, starts with a list. -/
inductive Nested : ℕ → List Replstr → Prop
  | own (rsa : List Replstr) : Nested 1 rsa
  | refer {n : ℕ} {rsa rsa' : List Replstr} (h : Refers env conf m r rsa rsa') (h' : Nested n rsa') :
    Nested (n + 1) rsa

/-- The same for the lists of a rule. -/
def NestedRule (n : ℕ) : Prop :=
  (∃ t ∈ r.lambda, findDeliveryUsers conf r none ≠ [] ∧
    ∃ rsa, Actitem.chain rsa ∈ t.list ∧ Nested env conf m r n rsa) ∨
  r.actions ≠ [] ∧ Nested env conf m r n r.actions

/-- All users are there. -/
def Users (users : List Replstr) : Prop := ∀ user ∈ users, ∃ udata, lookupUser env m user = .ok udata

/-- Every name in a list matches an action and every user is there, and the same holds of the
lists that it refers to, so many deep. -/
def Resolved : ℕ → List Replstr → Prop
  | 0, _ => True
  | n + 1, rsa =>
    ∀ rs ∈ rsa, matchActions env conf m rs ≠ [] ∧
      ∀ t ∈ matchActions env conf m rs, Users env m (findDeliveryUsers conf r (some t)) ∧
        ∀ rsa', Actitem.chain rsa' ∈ t.list → Resolved n rsa'

/-- The same for the lists of a rule. -/
def ResolvedRule : Prop :=
  (∀ t ∈ r.lambda, Users env m (findDeliveryUsers conf r none) ∧
    ∀ rsa, Actitem.chain rsa ∈ t.list → Resolved env conf m r (maxActionChain - 1) rsa) ∧
  (r.actions ≠ [] → Resolved env conf m r (maxActionChain - 1) r.actions)

/-- Chained actions expand as the action tree: filling the queue ends, with the leaves of the tree
or for the reason that stops it, and where every name and user is there it fails with too many
chained actions exactly if so many lists are nested. -/
structure ExpandsAsTree : Prop where
  terminates : fillFromRule env conf m r ≠ .error .fuel
  leaves : fillFromRule env conf m r = leaves env conf m r
  tooMany : ResolvedRule env conf m r →
    (fillFromRule env conf m r = .error .tooMany ↔
      ∃ n ≥ maxActionChain, NestedRule env conf m r n)

/-- The tree has few lists of actions: each counts as often as it is gone through. -/
def FewLists : Prop :=
  (walkLambda env conf m r).used < maxActionChain ∧
    ((walkLambda env conf m r).result.isOk → (walkActions env conf m r).used < maxActionChain)

end

/-! ## The counter -/

section

variable {env : Env κ δ υ σ γ ρ} {conf : Conf κ δ} {m : MailData σ} {r : Rule κ δ}

/-- A walk of nothing, with a counter. -/
theorem run_error (e : FillError) {chained : ℕ} (h : 0 < chained) :
    (⟨0, .error e⟩ : Walk FillError (DeliverCtx δ υ)).run .tooMany chained = .error e := if_pos h

/-- The deliveries of one action, along the walk over its items. -/
theorem fillFromAction_run {chain : List Replstr → ℕ → Filled δ υ}
    {w : List Replstr → Walk FillError (DeliverCtx δ υ)} {most : ℕ}
    (hchain : ∀ rsa chained, 0 < chained → chained ≤ most →
      chain rsa chained = (w rsa).run .tooMany chained)
    (t : Action δ) (users : List Replstr) {chained : ℕ} (hpos : 0 < chained)
    (hle : chained ≤ most) :
    fillFromAction env m chain t users chained =
      (walkAction env m w t users).run .tooMany chained := by
  refine gather_run users (fun user _ left hpos hle => ?_) hpos hle
  cases hlookup : lookupUser env m user with
  | error e => exact (run_error e hpos).symm
  | ok udata =>
    refine gather_run t.list (fun ti _ left hpos hle => ?_) hpos hle
    cases ti with
    | chain actions => exact hchain actions left hpos hle
    | deliver idx type data => exact (if_pos hpos).symm

/-- The deliveries of one name, along the walk over the actions that it matches. -/
theorem fillFromString_run {chain : List Replstr → ℕ → Filled δ υ}
    {w : List Replstr → Walk FillError (DeliverCtx δ υ)} {most : ℕ}
    (hchain : ∀ rsa chained, 0 < chained → chained ≤ most →
      chain rsa chained = (w rsa).run .tooMany chained)
    (rs : Replstr) {chained : ℕ} (hpos : 0 < chained) (hle : chained ≤ most) :
    fillFromString env conf m r chain rs chained =
      (walkString env conf m r w rs).run .tooMany chained := by
  unfold fillFromString walkString
  split_ifs
  · exact (run_error .noActions hpos).symm
  · exact gather_run _ (fun t _ left hpos hle =>
      fillFromAction_run hchain t (findDeliveryUsers conf r (some t)) hpos hle) hpos hle

/-- The counter counts the lists. -/
theorem fillFromStrings_run (n : ℕ) (rsa : List Replstr) {chained : ℕ} (hpos : 0 < chained)
    (hle : chained ≤ n + 1) :
    fillFromStrings env conf m r (n + 1) rsa chained =
      (walkStrings env conf m r n rsa).run .tooMany chained := by
  induction n generalizing rsa chained with
  | zero =>
    have hone : chained = 1 := by omega
    subst hone
    rfl
  | succ n ih =>
    rw [fillFromStrings, walkStrings]
    by_cases hone : chained - 1 = 0
    · rw [if_pos hone, Walk.run, if_neg (by dsimp only; omega)]
    · have hstring : ∀ rs ∈ rsa, ∀ left, 0 < left → left ≤ n + 1 →
          fillFromString env conf m r (fillFromStrings env conf m r (n + 1)) rs left
            = (walkString env conf m r (walkStrings env conf m r n) rs).run .tooMany left :=
        fun rs _ left hpos hle => fillFromString_run (fun rsa chained => ih rsa) rs hpos hle
      have hgather := gather_run rsa hstring (show 0 < chained - 1 by omega)
        (show chained - 1 ≤ n + 1 by omega)
      rw [if_neg hone, hgather, Walk.run, Walk.run]
      by_cases hlt : (Walk.all (walkString env conf m r (walkStrings env conf m r n)) rsa).used + 1 <
        chained
      · rw [if_pos hlt, if_pos (by omega), Nat.sub_sub, Nat.add_comm 1]
      · rw [if_neg hlt, if_neg (by omega)]

/-- A walk with the counter of a rule. -/
def capped (w : Walk FillError (DeliverCtx δ υ)) : Except FillError (List (DeliverCtx δ υ)) :=
  if w.used < maxActionChain then w.result else .error .tooMany

/-- A walk from the top, with the limit of the chain. -/
theorem run_capped (w : Walk FillError (DeliverCtx δ υ)) :
    (w.run .tooMany maxActionChain).map Prod.snd = capped w := by
  unfold Walk.run capped
  split_ifs
  · cases w.result <;> rfl
  · rfl

/-- A rule fills the queue with its two trees, each with a counter of its own. -/
theorem fillFromRule_capped :
    fillFromRule env conf m r =
      (capped (walkLambda env conf m r)).bind fun q =>
        (capped (walkActions env conf m r)).map fun q' => q ++ q' := by
  have hchain (rsa : List Replstr) (chained : ℕ) (hpos : 0 < chained)
      (hle : chained ≤ maxActionChain) :
      fillFromStrings env conf m r maxActionChain rsa chained =
        (walkStrings env conf m r (maxActionChain - 1) rsa).run .tooMany chained :=
    fillFromStrings_run (maxActionChain - 1) rsa hpos hle
  have hpos : 0 < maxActionChain := by decide
  unfold fillFromRule walkLambda walkActions
  dsimp only
  rw [hchain r.actions maxActionChain hpos (Nat.le_refl _), run_capped]
  congr 1
  · cases r.lambda with
    | none => rfl
    | some t =>
      dsimp only
      rw [fillFromAction_run hchain t _ hpos (Nat.le_refl _), run_capped]
  · funext q
    split_ifs <;> rfl


/-! ## No bound of the model -/

theorem lookupUser_ne_fuel (user : Replstr) : lookupUser env m user ≠ .error .fuel := by
  unfold lookupUser
  dsimp only
  split_ifs
  · nofun
  · cases env.userLookup (env.replacestr user m) <;> nofun

theorem walkAction_ne_fuel {chain : List Replstr → Walk FillError (DeliverCtx δ υ)}
    (h : ∀ rsa, (chain rsa).result ≠ .error .fuel) (t : Action δ) (users : List Replstr) :
    (walkAction env m chain t users).result ≠ .error .fuel := by
  refine Walk.all_ne fun user _ => ?_
  cases hlookup : lookupUser env m user with
  | error e =>
    have hne : lookupUser env m user ≠ .error .fuel := lookupUser_ne_fuel user
    rw [hlookup] at hne
    intro heq
    apply hne
    cases heq
    rfl
  | ok udata =>
    refine Walk.all_ne fun ti _ => ?_
    cases ti with
    | chain actions => exact h actions
    | deliver idx type data => nofun

theorem walkStrings_ne_fuel (n : ℕ) (rsa : List Replstr) :
    (walkStrings env conf m r n rsa).result ≠ .error .fuel := by
  induction n generalizing rsa with
  | zero => nofun
  | succ n ih =>
    refine Walk.all_ne (f := walkString env conf m r (walkStrings env conf m r n)) fun rs _ => ?_
    unfold walkString
    split_ifs
    · nofun
    · exact Walk.all_ne fun t _ => walkAction_ne_fuel ih t _

/-- A walk that is cut at the limit does not run out of fuel either. -/
theorem capped_ne_fuel {w : Walk FillError (DeliverCtx δ υ)} (h : w.result ≠ .error .fuel) :
    capped w ≠ .error .fuel := by
  unfold capped
  split_ifs
  · exact h
  · nofun

/-- Filling the queue ends. -/
theorem fillFromRule_fuel : fillFromRule env conf m r ≠ .error .fuel := by
  have hlambda : capped (walkLambda env conf m r) ≠ .error .fuel := by
    apply capped_ne_fuel
    unfold walkLambda
    cases r.lambda with
    | none => nofun
    | some t => exact walkAction_ne_fuel (walkStrings_ne_fuel _) t _
  have hactions : capped (walkActions env conf m r) ≠ .error .fuel := by
    apply capped_ne_fuel
    unfold walkActions
    split_ifs
    · nofun
    · exact walkStrings_ne_fuel _ _
  rw [fillFromRule_capped]
  cases hl : capped (walkLambda env conf m r) with
  | error e =>
    rw [hl] at hlambda
    exact hlambda
  | ok q =>
    cases ha : capped (walkActions env conf m r) with
    | error e =>
      rw [ha] at hactions
      intro heq
      apply hactions
      cases heq
      rfl
    | ok q' => nofun

/-! ## When the counter does not matter -/

/-- The queue is filled with the leaves exactly if the tree has few lists or goes too deep. -/
theorem leaves_iff :
    fillFromRule env conf m r = leaves env conf m r ↔
      FewLists env conf m r ∨ leaves env conf m r = .error .tooMany := by
  rw [fillFromRule_capped]
  unfold leaves FewLists capped
  by_cases hlambda : (walkLambda env conf m r).used < maxActionChain
  · rw [if_pos hlambda]
    cases hl : (walkLambda env conf m r).result with
    | error e => simp [Except.bind, Except.isOk, Except.toBool, hlambda]
    | ok q =>
      by_cases hactions : (walkActions env conf m r).used < maxActionChain
      · simp [Except.bind, hlambda, hactions]
      · rw [if_neg hactions]
        simp [Except.bind, Except.map, Except.isOk, Except.toBool, hlambda, hactions, eq_comm]
  · rw [if_neg hlambda]
    constructor
    · intro h
      exact .inr h.symm
    · rintro (⟨hlt, -⟩ | h)
      · exact absurd hlt hlambda
      · exact h.symm


/-! ## Nested lists -/

/-- Names that are nested deep are nested less deep. -/
theorem nested_le {n k : ℕ} {rsa : List Replstr} (h : Nested env conf m r n rsa) (hpos : 1 ≤ k)
    (hle : k ≤ n) : Nested env conf m r k rsa := by
  induction h generalizing k with
  | own rsa =>
    have hone : k = 1 := by omega
    subst hone
    exact .own rsa
  | refer hrefers h' ih =>
    by_cases hone : k = 1
    · subst hone
      exact .own _
    · obtain ⟨k, rfl⟩ : ∃ j, k = j + 1 := ⟨k - 1, by omega⟩
      exact .refer hrefers (ih (by omega) (by omega))

/-- Deeper nesting goes by way of a name that is referred to. -/
theorem nested_succ {n : ℕ} {rsa : List Replstr} :
    Nested env conf m r (n + 2) rsa ↔
      ∃ rsa', Refers env conf m r rsa rsa' ∧ Nested env conf m r (n + 1) rsa' := by
  constructor
  · intro h
    cases h with
    | refer hrefers h' => exact ⟨_, hrefers, h'⟩
  · rintro ⟨rsa', hrefers, h'⟩
    exact .refer hrefers h'

/-- An action whose users are there fails as the lists in it do. -/
theorem walkAction_tooMany {chain : List Replstr → Walk FillError (DeliverCtx δ υ)} {t : Action δ}
    {users : List Replstr} (husers : Users env m users)
    (hchain : ∀ rsa, Actitem.chain rsa ∈ t.list → Walk.Only .tooMany (chain rsa)) :
    Walk.Only .tooMany (walkAction env m chain t users) ∧
      ((walkAction env m chain t users).result = .error .tooMany ↔
        users ≠ [] ∧ ∃ rsa, Actitem.chain rsa ∈ t.list ∧ (chain rsa).result = .error .tooMany) := by
  let item (udata : υ) (ti : Actitem δ) : Walk FillError (DeliverCtx δ υ) :=
    match ti with
    | .chain actions => chain actions
    | .deliver _ type data => ⟨0, .ok [⟨t.name, type, data, udata⟩]⟩
  have hitem (udata : υ) : ∀ ti ∈ t.list, Walk.Only .tooMany (item udata ti) := by
    intro ti hti
    cases ti with
    | chain rsa => exact hchain rsa hti
    | deliver idx type data => exact .inr ⟨_, rfl⟩
  have hitems (udata : υ) : (Walk.all (item udata) t.list).result = .error .tooMany ↔
      ∃ rsa, Actitem.chain rsa ∈ t.list ∧ (chain rsa).result = .error .tooMany := by
    rw [Walk.all_error_iff (hitem udata)]
    constructor
    · rintro ⟨ti, hti, hres⟩
      cases ti with
      | chain rsa => exact ⟨rsa, hti, hres⟩
      | deliver idx type data => cases hres
    · rintro ⟨rsa, hrsa, hres⟩
      exact ⟨.chain rsa, hrsa, hres⟩
  let user (u : Replstr) : Walk FillError (DeliverCtx δ υ) :=
    match lookupUser env m u with
    | .error e => ⟨0, .error e⟩
    | .ok udata => Walk.all (item udata) t.list
  have huser : ∀ u ∈ users, ∃ udata, user u = Walk.all (item udata) t.list := by
    intro u hu
    obtain ⟨udata, hlookup⟩ := husers u hu
    refine ⟨udata, ?_⟩
    show (match lookupUser env m u with
      | .error e => _
      | .ok udata => Walk.all (item udata) t.list) = _
    rw [hlookup]
  have honly : ∀ u ∈ users, Walk.Only .tooMany (user u) := by
    intro u hu
    obtain ⟨udata, heq⟩ := huser u hu
    rw [heq]
    exact Walk.only_all (hitem udata)
  have haction : walkAction env m chain t users = Walk.all user users := rfl
  rw [haction]
  refine ⟨Walk.only_all honly, ?_⟩
  rw [Walk.all_error_iff honly]
  constructor
  · rintro ⟨u, hu, hres⟩
    obtain ⟨udata, heq⟩ := huser u hu
    rw [heq, hitems] at hres
    exact ⟨List.ne_nil_of_mem hu, hres⟩
  · rintro ⟨hne, hres⟩
    obtain ⟨u, hu⟩ := List.exists_mem_of_ne_nil users hne
    obtain ⟨udata, heq⟩ := huser u hu
    exact ⟨u, hu, by rwa [heq, hitems]⟩

/-- Where every name and user is there, a list fails exactly if lists are nested too deep. -/
theorem walkStrings_tooMany (n : ℕ) (rsa : List Replstr) (h : Resolved env conf m r n rsa) :
    Walk.Only .tooMany (walkStrings env conf m r n rsa) ∧
      ((walkStrings env conf m r n rsa).result = .error .tooMany ↔
        Nested env conf m r (n + 1) rsa) := by
  induction n generalizing rsa with
  | zero => exact ⟨.inl rfl, fun _ => .own rsa, fun _ => rfl⟩
  | succ n ih =>
    have haction : ∀ rs ∈ rsa, ∀ t ∈ matchActions env conf m rs, _ := fun rs hrs t ht =>
      walkAction_tooMany ((h rs hrs).2 t ht).1
        fun rsa' hrsa' => (ih rsa' (((h rs hrs).2 t ht).2 rsa' hrsa')).1
    have hstring : ∀ rs ∈ rsa,
        Walk.Only .tooMany (walkString env conf m r (walkStrings env conf m r n) rs) ∧
          ((walkString env conf m r (walkStrings env conf m r n) rs).result = .error .tooMany ↔
            ∃ t ∈ matchActions env conf m rs, findDeliveryUsers conf r (some t) ≠ [] ∧
              ∃ rsa', Actitem.chain rsa' ∈ t.list ∧ Nested env conf m r (n + 1) rsa') := by
      intro rs hrs
      have honly : ∀ t ∈ matchActions env conf m rs, Walk.Only .tooMany
          (walkAction env m (walkStrings env conf m r n) t (findDeliveryUsers conf r (some t))) :=
        fun t ht => (haction rs hrs t ht).1
      unfold walkString
      rw [if_neg (h rs hrs).1, Walk.all_error_iff honly]
      refine ⟨Walk.only_all honly, exists_congr fun t => and_congr_right fun ht => ?_⟩
      rw [(haction rs hrs t ht).2]
      refine and_congr_right fun _ => exists_congr fun rsa' => and_congr_right fun hrsa' => ?_
      exact (ih rsa' (((h rs hrs).2 t ht).2 rsa' hrsa')).2
    have honly : ∀ rs ∈ rsa,
        Walk.Only .tooMany (walkString env conf m r (walkStrings env conf m r n) rs) :=
      fun rs hrs => (hstring rs hrs).1
    refine ⟨Walk.only_all honly, ?_⟩
    have hres : (walkStrings env conf m r (n + 1) rsa).result =
        (Walk.all (walkString env conf m r (walkStrings env conf m r n)) rsa).result := rfl
    rw [hres, Walk.all_error_iff honly, nested_succ]
    constructor
    · rintro ⟨rs, hrs, hfails⟩
      obtain ⟨t, ht, hne, rsa', hrsa', hnested⟩ := (hstring rs hrs).2.mp hfails
      exact ⟨rsa', ⟨rs, hrs, t, ht, hne, hrsa'⟩, hnested⟩
    · rintro ⟨rsa', ⟨rs, hrs, t, ht, hne, hrsa'⟩, hnested⟩
      exact ⟨rs, hrs, (hstring rs hrs).2.mpr ⟨t, ht, hne, rsa', hrsa', hnested⟩⟩


/-- What is nested deeper than the limit is nested as deep as the limit. -/
theorem nestedRule_iff :
    (∃ n ≥ maxActionChain, NestedRule env conf m r n) ↔ NestedRule env conf m r maxActionChain := by
  constructor
  · rintro ⟨n, hle, ⟨t, ht, husers, rsa, hrsa, hnested⟩ | ⟨hne, hnested⟩⟩
    · exact .inl ⟨t, ht, husers, rsa, hrsa, nested_le hnested (by decide) hle⟩
    · exact .inr ⟨hne, nested_le hnested (by decide) hle⟩
  · intro h
    exact ⟨maxActionChain, Nat.le_refl _, h⟩

/-- Where every name and user is there, a rule fails exactly if lists are nested too deep. -/
theorem leaves_tooMany (h : ResolvedRule env conf m r) :
    leaves env conf m r = .error .tooMany ↔ NestedRule env conf m r maxActionChain := by
  have hlambda : Walk.Only .tooMany (walkLambda env conf m r) ∧
      ((walkLambda env conf m r).result = .error .tooMany ↔
        ∃ t ∈ r.lambda, findDeliveryUsers conf r none ≠ [] ∧
          ∃ rsa, Actitem.chain rsa ∈ t.list ∧ Nested env conf m r maxActionChain rsa) := by
    unfold walkLambda
    cases hr : r.lambda with
    | none => exact ⟨.inr ⟨[], rfl⟩, by simp⟩
    | some t =>
      obtain ⟨husers, hchains⟩ := h.1 t hr
      have hdeep (rsa : List Replstr) (hrsa : Actitem.chain rsa ∈ t.list) :=
        walkStrings_tooMany (maxActionChain - 1) rsa (hchains rsa hrsa)
      obtain ⟨honly, hiff⟩ := walkAction_tooMany husers fun rsa hrsa => (hdeep rsa hrsa).1
      refine ⟨honly, hiff.trans ?_⟩
      constructor
      · rintro ⟨hne, rsa, hrsa, hres⟩
        exact ⟨t, rfl, hne, rsa, hrsa, (hdeep rsa hrsa).2.mp hres⟩
      · rintro ⟨t', ht', hne, rsa, hrsa, hnested⟩
        cases ht'
        exact ⟨hne, rsa, hrsa, (hdeep rsa hrsa).2.mpr hnested⟩
  have hactions : (walkActions env conf m r).result = .error .tooMany ↔
      r.actions ≠ [] ∧ Nested env conf m r maxActionChain r.actions := by
    unfold walkActions
    by_cases hne : r.actions = []
    · simp [hne]
    · rw [if_neg hne, (walkStrings_tooMany _ _ (h.2 hne)).2]
      exact (and_iff_right hne).symm
  unfold leaves NestedRule
  rw [← hlambda.2, ← hactions]
  rcases hlambda.1 with hl | ⟨q, hl⟩
  · simp [hl, Except.bind]
  · rw [hl]
    cases (walkActions env conf m r).result <;> simp [Except.bind, Except.map]

/-- Chained actions expand as the action tree exactly if the tree has few lists, or is too deep. -/
theorem expandsAsTree_iff (env : Env κ δ υ σ γ ρ) (conf : Conf κ δ) (m : MailData σ)
    (r : Rule κ δ) :
    ExpandsAsTree env conf m r ↔
      FewLists env conf m r ∨ leaves env conf m r = .error .tooMany := by
  constructor
  · intro h
    exact leaves_iff.mp h.leaves
  · intro h
    have hleaves := leaves_iff.mpr h
    refine ⟨fillFromRule_fuel, hleaves, fun hresolved => ?_⟩
    rw [hleaves, leaves_tooMany hresolved, nestedRule_iff]

/-! ## The queue -/

theorem toOption_bind {ε α β : Type} (x : Except ε α) (f : α → Except ε β) :
    (x.bind f).toOption = x.toOption.bind fun a => (f a).toOption := by
  cases x <;> rfl

theorem toOption_map {ε α β : Type} (x : Except ε α) (f : α → β) :
    (x.map f).toOption = x.toOption.map f := by
  cases x <;> rfl

theorem toOption_gather {α β : Type} {f : α → ℕ → Except FillError (ℕ × List β)}
    {g : α → ℕ → Option (ℕ × List β)} (h : ∀ a chained, (f a chained).toOption = g a chained)
    (as : List α) (chained : ℕ) :
    (gather f as chained).toOption = collect g as chained := by
  induction as generalizing chained with
  | nil => rfl
  | cons a as ih =>
    rw [gather, collect, toOption_bind, h]
    congr 1
    funext p
    rw [toOption_map, ih]

theorem toOption_fillFromAction {chain : List Replstr → ℕ → Filled δ υ}
    {chain' : List Replstr → ℕ → Option (ℕ × List (DeliverCtx δ υ))}
    (h : ∀ rsa chained, (chain rsa chained).toOption = chain' rsa chained) (t : Action δ)
    (users : List Replstr) (chained : ℕ) :
    (fillFromAction env m chain t users chained).toOption =
      Rules.fillFromAction env chain' m t users chained := by
  refine toOption_gather (fun user chained => ?_) users chained
  unfold lookupUser
  dsimp only
  split_ifs
  · rfl
  · cases env.userLookup (env.replacestr user m) with
    | none => rfl
    | some udata =>
      refine toOption_gather (fun ti chained => ?_) t.list chained
      cases ti with
      | chain actions => exact h actions chained
      | deliver idx type data => rfl

theorem toOption_fillFromStrings (fuel : ℕ) (rsa : List Replstr) (chained : ℕ) :
    (fillFromStrings env conf m r fuel rsa chained).toOption =
      Rules.fillFromStrings env conf m r fuel rsa chained := by
  induction fuel generalizing rsa chained with
  | zero => rfl
  | succ fuel ih =>
    rw [fillFromStrings, Rules.fillFromStrings]
    split_ifs
    · rfl
    · refine toOption_gather (fun rs chained => ?_) rsa (chained - 1)
      unfold fillFromString Rules.fillFromString matchActions
      dsimp only
      split_ifs
      · rfl
      · exact toOption_gather (fun t chained => toOption_fillFromAction ih t _ chained) _ chained

/-- The rules of `mail_match` fill the queue in this way. -/
theorem toOption_fillFromRule :
    (fillFromRule env conf m r).toOption = Rules.fillFromRule env conf m r := by
  unfold fillFromRule Rules.fillFromRule
  dsimp only
  rw [toOption_bind]
  congr 1
  · cases r.lambda with
    | none => rfl
    | some t =>
      rw [toOption_map, toOption_fillFromAction (toOption_fillFromStrings _)]
  · funext q
    rw [toOption_map]
    split_ifs
    · rfl
    · rw [toOption_map, toOption_fillFromStrings]

end

/-! ## A wide action -/

/-- Nothing is expanded, every user is there, and a name matches the action of that name. -/
def plainEnv : Env Unit Unit Unit Unit Unit Unit where
  tryMatch _ _ m world := (some true, m, world)
  deliver _ _ m world := (true, m, world)
  replacestr s _ := s
  userLookup _ := some ()
  actionMatch s name := s = name
  addTag _ _ rest := rest
  updateTags _ rest := rest
  resetTags rest := rest
  receiveTags _ rest := rest
  receiveMail _ _ := none

/-- An action that refers to another one four times. -/
def wide : Action Unit where
  name := ['w']
  users := none
  list := [.chain [['d']], .chain [['d']], .chain [['d']], .chain [['d']]]

/-- The other action: one delivery. -/
def single : Action Unit where
  name := ['d']
  users := none
  list := [.deliver 0 .inchild ()]

/-- The rule names the wide action. -/
def wideRule : Rule Unit Unit := .mk 0 { cond := .other () } [] none false none [['w']] []

/-- Two lists are nested, but five are gone through. -/
theorem wide_fails :
    ¬ ∀ (env : Env Unit Unit Unit Unit Unit Unit) (conf : Conf Unit Unit) (m : MailData Unit)
      (r : Rule Unit Unit), ExpandsAsTree env conf m r := by
  intro h
  let conf : Conf Unit Unit := { rules := [wideRule], actionList := [wide, single], defUser := ['u'] }
  have hleaves := (h plainEnv conf { data := [], rest := () } wideRule).leaves
  have hfails : fillFromRule plainEnv conf { data := [], rest := () } wideRule = .error .tooMany := rfl
  have hfour : leaves plainEnv conf { data := [], rest := () } wideRule =
      .ok (List.replicate 4 ⟨['d'], .inchild, (), ()⟩) := rfl
  rw [hfails, hfour] at hleaves
  cases hleaves

end Fdm.Rules.Chains
