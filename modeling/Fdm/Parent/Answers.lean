import Fdm.Parent.Children
import Fdm.Rules.Eval
import Mathlib.Data.List.Count

/-!
# Answers

What a fetch child has asked for is on its way to the parent, or a child works on it, or it has
been answered. It stays so as long as no child is lost before its outcome has been handled.
-/

namespace Fdm.Parent

open Lib.Runs

/-! ## Requests -/

/-- A request of a fetch child with some id. -/
def Request.isFor (f id : ℕ) (r : Request) : Bool := r.child = f && r.msgid = id

/-- A message with a request. -/
def Message.isFor (f id : ℕ) (msg : Message) : Bool := (msg.request f).any (Request.isFor f id)

/-- A child that is to report about a request; `told` says which children are done. -/
def isPending (told : ℕ → Bool) (f id : ℕ) (child : Child) : Bool :=
  child.io && !told child.addr && child.data.any (Request.isFor f id)

/-- The requests of a fetch child with some id that the parent has been sent. -/
def askedCount (s : Sys) (f id : ℕ) : ℕ := s.asked.countP (Request.isFor f id)

/-- The answers to them. -/
def sentCount (s : Sys) (f id : ℕ) : ℕ := s.sent.countP fun reply => reply.child = f && reply.id = id

/-- The requests that the parent has not handled. -/
def queuedCount (s : Sys) (f id : ℕ) : ℕ := (s.inbox f).countP (Message.isFor f id)

/-- The requests that children work on. -/
def pendingCount (s : Sys) (f id : ℕ) : ℕ := s.children.countP (isPending s.told f id)

/-- The requests that are still to be answered: they are on their way, or a child works on them. A
parent that has ended answers nothing more. -/
def outstanding (s : Sys) (f id : ℕ) : ℕ :=
  if s.fatal then 0 else queuedCount s f id + pendingCount s f id

/-- Each request of a fetch child that lives has been answered once, or is still to be. -/
def Answered (s : Sys) : Prop :=
  ∀ child, s.live child → child.data = none → ∀ id,
    askedCount s child.addr id = sentCount s child.addr id + outstanding s child.addr id

/-- An answer to a command that `mail_match` takes for a match: `MATCH_TRUE`. -/
def matched (error : ℕ) : Bool := error = 1

/-- A child was started for a request; it may be dead. -/
def Sys.startedFor (s : Sys) (a : ℕ) (r : Request) : Prop :=
  ∃ child ∈ s.deadChildren ++ s.children, child.addr = a ∧ child.data = some r

def Reply.answers (reply : Reply) (r : Request) : Prop :=
  reply.child = r.child ∧ reply.id = r.msgid ∧ reply.command = r.command

/-- When `mail_match` takes the answer for a match, the child that was started for this command has
said so. -/
def OwnOutcome (s : Sys) : Prop :=
  ∀ reply ∈ s.sent, reply.command = true → matched reply.error = true →
    ∃ a r, reply.reporter = some a ∧ s.report a = some 1 ∧ s.startedFor a r ∧ reply.answers r

/-- The same of any child. -/
def Reported (s : Sys) : Prop :=
  ∀ reply ∈ s.sent, reply.command = true → matched reply.error = true →
    ∃ a, reply.reporter = some a ∧ s.report a = some 1

/-- What `mail_match` makes of an answer. -/
theorem evalReply_matched {κ δ υ σ γ ρ : Type} (env : Rules.Env κ δ υ σ γ ρ) (msg : Rules.Msg ρ)
    (s : Rules.Sit κ δ υ σ γ ρ) (h : msg.type = .done) :
    (Rules.evalReply env msg s).1 = .ok true ↔ matched msg.error = true := by
  unfold Rules.evalReply
  rw [if_neg (by simpa using h)]
  dsimp only
  split <;> simp_all [matched]

/-! ## Steps that lose nothing -/

/-- A child that is to report to a fetch child that lives. -/
def Sys.Awaited (s : Sys) (child : Child) : Prop :=
  child.io = true ∧ s.told child.addr = false ∧
    ∃ r f, child.data = some r ∧ s.live f ∧ f.data = none ∧ f.addr = r.child

instance (s : Sys) (child : Child) : Decidable (s.Awaited child) :=
  decidable_of_iff (child.io = true ∧ s.told child.addr = false ∧
      ∃ r ∈ child.data, ∃ f ∈ s.children, s.live f ∧ f.data = none ∧ f.addr = r.child) <| by
    constructor
    · rintro ⟨hio, htold, r, hr, f, -, hf⟩
      exact ⟨hio, htold, r, f, hr, hf⟩
    · rintro ⟨hio, htold, r, f, hr, hf⟩
      exact ⟨hio, htold, r, hr, f, hf.1.1, hf⟩

/-- The message that a child has sent can be handled: the mail of a command can be received, and
a child that the parent sends something has not ended. -/
def Handled (s : Sys) (child : Child) (calls : Calls) : Prop :=
  match (s.inbox child.addr).head? with
  | some (.command _) => calls.receives = true
  | some (.action _ wrback) =>
    calls.receives = true ∧ (wrback = true → calls.opens = true) ∨ s.ended child.addr = false
  | _ => s.ended child.addr = false

instance (s : Sys) (child : Child) (calls : Calls) : Decidable (Handled s child calls) := by
  unfold Handled
  split <;> infer_instance

/-- The condition on a step: a child whose outcome somebody waits for is neither waited for nor
is its socket found dead, and messages can be handled. -/
def Keeps (s : Sys) : Act → Prop
  | .handle child calls => Handled s child calls
  | .wait exits _ => ∀ child ∈ s.children, child.pid ∈ exits.map Prod.fst → ¬ s.Awaited child
  | .dead child => ¬ s.Awaited child
  | .fails => False
  | _ => True

instance (s : Sys) (act : Act) : Decidable (Keeps s act) := by
  cases act <;> unfold Keeps <;> infer_instance

/-- The messages and the outcome of a child. -/
structure Mailbox (s : Sys) (child : Child) : Prop where
  fetch : child.data = none → ∀ msg ∈ s.inbox child.addr, msg.fromFetch = true
  fresh : child.data ≠ none → s.report child.addr = none →
    s.inbox child.addr = [] ∧ s.told child.addr = false
  reported : ∀ error, child.data ≠ none → s.report child.addr = some error →
    s.inbox child.addr = [] ∨ s.inbox child.addr = [.done error] ∧ s.told child.addr = false

/-- It depends on nothing else. -/
theorem Mailbox.congr {s s' : Sys} {child : Child} (h : Mailbox s child)
    (hinbox : s'.inbox child.addr = s.inbox child.addr)
    (hreport : s'.report child.addr = s.report child.addr)
    (htold : s'.told child.addr = s.told child.addr) : Mailbox s' child := by
  constructor
  · rw [hinbox]
    exact h.fetch
  · rw [hinbox, hreport, htold]
    exact h.fresh
  · rw [hinbox, hreport, htold]
    exact h.reported

/-- Nothing is known of an address that is still to be used. -/
structure Fresh (s : Sys) : Prop where
  inbox : ∀ a, s.next ≤ a → s.inbox a = []
  told : ∀ a, s.next ≤ a → s.told a = false
  report : ∀ a, s.next ≤ a → s.report a = none
  asked : ∀ r ∈ s.asked, r.child < s.next
  sent : ∀ reply ∈ s.sent, reply.child < s.next
  data : ∀ child ∈ s.children, ∀ r ∈ child.data, r.child < s.next

/-- The invariant of a run that loses nothing. -/
structure Kept (s : Sys) : Prop where
  moved : Moved s
  fresh : Fresh s
  mailbox : ∀ child ∈ s.children, Mailbox s child
  answered : Answered s
  own : Reported s
  fatal : s.fatal = false

/-! ## Counting -/

/-- A child is known by its address. -/
theorem eq_of_addr {s : Sys} (h : Tables s) {c d : Child} (hc : c ∈ s.children)
    (hd : d ∈ s.children) (heq : c.addr = d.addr) : c = d := by
  have hnodup : (s.children.map Child.addr).Nodup := by
    have hall := h.addrs.nodup_iff.mpr List.nodup_range
    rw [List.map_append] at hall
    exact (List.nodup_append.mp hall).2.1
  exact List.inj_on_of_nodup_map hnodup hc hd heq

/-- Addresses are given out in order. -/
theorem addr_lt {s : Sys} (h : Tables s) {c : Child} (hc : c ∈ s.children) : c.addr < s.next := by
  have hmem : c.addr ∈ (s.deadChildren ++ s.children).map Child.addr :=
    List.mem_map_of_mem (List.mem_append_right _ hc)
  exact List.mem_range.mp (h.addrs.mem_iff.mp hmem)

theorem ne_addr_of_le {s : Sys} (h : Tables s) {c : Child} (hc : c ∈ s.children) {a : ℕ}
    (ha : s.next ≤ a) : a ≠ c.addr := by
  have hlt := addr_lt h hc
  omega

/-- A child that is started works on its request. -/
theorem pendingCount_childStart {s : Sys} (hfresh : s.told s.next = false) (pid : ℕ)
    (parent : Option ℕ) (data : Option Request) (f id : ℕ) :
    pendingCount (childStart pid parent data s) f id =
      pendingCount s f id + if data.any (Request.isFor f id) then 1 else 0 := by
  simp [pendingCount, childStart, List.countP_append, isPending, hfresh]

/-- A child that has been told to exit works on nothing. -/
theorem pendingCount_told {s : Sys} (h : Tables s) {d : Child} (hd : d ∈ s.children) (f id : ℕ) :
    s.children.countP (isPending s.told f id) =
      s.children.countP (isPending (Function.update s.told d.addr true) f id) +
        if isPending s.told f id d then 1 else 0 := by
  have hperm := List.perm_cons_erase hd
  have hrest : ∀ c ∈ s.children.erase d, isPending (Function.update s.told d.addr true) f id c =
      isPending s.told f id c := by
    intro c hc
    have hne : c.addr ≠ d.addr := by
      intro heq
      obtain rfl := eq_of_addr h (List.mem_of_mem_erase hc) hd heq
      have hnodup : s.children.Nodup := List.Nodup.of_map _ h.pids
      exact (List.Nodup.not_mem_erase hnodup) hc
    simp [isPending, Function.update_of_ne hne]
  have hcount : (s.children.erase d).countP (isPending (Function.update s.told d.addr true) f id) =
      (s.children.erase d).countP (isPending s.told f id) :=
    List.countP_congr fun c hc => by rw [hrest c hc]
  rw [hperm.countP_eq, hperm.countP_eq (isPending (Function.update s.told d.addr true) f id),
    List.countP_cons, List.countP_cons, hcount]
  simp [isPending]

/-- Answers in a state without an end, as sums. -/
theorem Kept.count {s : Sys} (h : Kept s) {c : Child} (hc : s.live c) (hdata : c.data = none)
    (id : ℕ) : askedCount s c.addr id =
      sentCount s c.addr id + (queuedCount s c.addr id + pendingCount s c.addr id) := by
  have hcount := h.answered c hc hdata id
  rwa [outstanding, h.fatal, if_neg Bool.false_ne_true] at hcount

/-- Answers, from sums. -/
theorem answered_of {s : Sys} (hfatal : s.fatal = false)
    (h : ∀ c, s.live c → c.data = none → ∀ id, askedCount s c.addr id =
      sentCount s c.addr id + (queuedCount s c.addr id + pendingCount s c.addr id)) :
    Answered s := by
  intro c hc hdata id
  rw [outstanding, hfatal, if_neg Bool.false_ne_true]
  exact h c hc hdata id

/-! ## Each step -/

/-- A child that is started, for a request that has just been handled or for none. -/
theorem kept_childStart {s : Sys} (hmoved : Moved s) (hfresh : Fresh s)
    (hmailbox : ∀ child ∈ s.children, Mailbox s child) (hown : Reported s)
    (hfatal : s.fatal = false) {pid : ℕ} (hfree : s.freePid pid) (parent : Option ℕ)
    {data : Option Request} (hdata : ∀ r ∈ data, r.child < s.next)
    (hcount : ∀ c, s.live c → c.data = none → ∀ id, askedCount s c.addr id =
      sentCount s c.addr id + (queuedCount s c.addr id + pendingCount s c.addr id +
        if data.any (Request.isFor c.addr id) then 1 else 0)) :
    Kept (childStart pid parent data s) where
  moved := ⟨childStart_tables hmoved.tables hfree _ _, hmoved.reaped⟩
  fresh :=
    { inbox := fun a ha => hfresh.inbox a (Nat.le_of_succ_le ha)
      told := fun a ha => hfresh.told a (Nat.le_of_succ_le ha)
      report := fun a ha => hfresh.report a (Nat.le_of_succ_le ha)
      asked := fun r hr => Nat.lt_succ_of_lt (hfresh.asked r hr)
      sent := fun reply hr => Nat.lt_succ_of_lt (hfresh.sent reply hr)
      data := by
        intro child hchild r hr
        rcases List.mem_append.mp hchild with hchild | hchild
        · exact Nat.lt_succ_of_lt (hfresh.data child hchild r hr)
        · obtain rfl := List.mem_singleton.mp hchild
          exact Nat.lt_succ_of_lt (hdata r hr) }
  mailbox := by
    intro child hchild
    rcases List.mem_append.mp hchild with hchild | hchild
    · exact (hmailbox child hchild).congr rfl rfl rfl
    · obtain rfl := List.mem_singleton.mp hchild
      have hinbox := hfresh.inbox s.next (Nat.le_refl _)
      have htold := hfresh.told s.next (Nat.le_refl _)
      exact ⟨fun _ => by simp [childStart, hinbox], fun _ _ => ⟨hinbox, htold⟩,
        fun _ _ _ => .inl hinbox⟩
  answered := by
    refine answered_of hfatal fun c hc hcdata id => ?_
    rw [pendingCount_childStart (hfresh.told s.next (Nat.le_refl _))]
    obtain ⟨hmem, hio, hended⟩ := hc
    rcases List.mem_append.mp hmem with hmem | hmem
    · have hsum := hcount c ⟨hmem, hio, hended⟩ hcdata id
      show askedCount s c.addr id = sentCount s c.addr id + (queuedCount s c.addr id + _)
      omega
    · -- nothing has been asked by a child that has just been started
      obtain rfl := List.mem_singleton.mp hmem
      have hasked : askedCount s s.next id = 0 := by
        refine List.countP_eq_zero.mpr fun r hr => ?_
        have hlt := hfresh.asked r hr
        simp [Request.isFor]
        omega
      have hsent : sentCount s s.next id = 0 := by
        refine List.countP_eq_zero.mpr fun reply hr => ?_
        have hlt := hfresh.sent reply hr
        simp
        omega
      have hqueued : queuedCount s s.next id = 0 := by
        simp [queuedCount, hfresh.inbox s.next (Nat.le_refl _)]
      have hpending : pendingCount s s.next id = 0 := by
        refine List.countP_eq_zero.mpr fun child hchild => ?_
        cases hcd : child.data with
        | none => simp [isPending, hcd]
        | some r =>
          have hlt := hfresh.data child hchild r hcd
          simp [isPending, hcd, Request.isFor]
          omega
      have hnone : data = none := hcdata
      show askedCount s s.next id = sentCount s s.next id + (queuedCount s s.next id + _)
      rw [hasked, hsent, hqueued]
      show 0 = 0 + (0 + (pendingCount s s.next id + _))
      rw [hpending, hnone]
      rfl
  own := hown
  fatal := hfatal

/-- Starting a fetch child keeps the invariant. -/
theorem kept_start {s : Sys} (h : Kept s) {pid : ℕ} (hfree : s.freePid pid) :
    Kept (childStart pid none none s) :=
  kept_childStart h.moved h.fresh h.mailbox h.own h.fatal hfree none (by simp)
    fun c hc hdata id => by simpa using h.count hc hdata id

/-- A message that is sent waits behind the others. -/
theorem kept_asks {s : Sys} (h : Kept s) {child : Child} {msg : Message} (hlive : s.live child)
    (hdata : child.data = none) (hfrom : msg.fromFetch = true) :
    Kept { s with
      inbox := Function.update s.inbox child.addr (s.inbox child.addr ++ [msg])
      asked := s.asked ++ (msg.request child.addr).toList } where
  moved := moved_congr h.moved rfl rfl rfl rfl
  fresh :=
    { inbox := fun a ha => by
        have hne := ne_addr_of_le h.moved.tables hlive.1 ha
        simpa [Function.update_of_ne hne] using h.fresh.inbox a ha
      told := h.fresh.told
      report := h.fresh.report
      asked := by
        intro r hr
        rcases List.mem_append.mp hr with hr | hr
        · exact h.fresh.asked r hr
        · have hchild : r.child = child.addr := by
            cases msg <;> simp [Message.request] at hr <;> rw [hr]
          exact hchild ▸ addr_lt h.moved.tables hlive.1
      sent := h.fresh.sent
      data := h.fresh.data }
  mailbox := by
    intro c hc
    by_cases heq : c.addr = child.addr
    · obtain rfl := eq_of_addr h.moved.tables hc hlive.1 heq
      refine ⟨fun _ m hm => ?_, fun hne => absurd hdata hne, fun _ hne => absurd hdata hne⟩
      simp only [Function.update_self] at hm
      rcases List.mem_append.mp hm with hm | hm
      · exact (h.mailbox c hc).fetch hdata m hm
      · exact List.mem_singleton.mp hm ▸ hfrom
    · exact (h.mailbox c hc).congr (Function.update_of_ne heq _ _) rfl rfl
  answered := by
    refine answered_of h.fatal fun c hc hcdata id => ?_
    have hsum := h.count hc hcdata id
    by_cases heq : c.addr = child.addr
    · have hqueued : queuedCount { s with
          inbox := Function.update s.inbox child.addr (s.inbox child.addr ++ [msg])
          asked := s.asked ++ (msg.request child.addr).toList } c.addr id =
          queuedCount s c.addr id + if msg.isFor c.addr id then 1 else 0 := by
        simp [queuedCount, heq, List.countP_append]
      have hasked : askedCount { s with
          inbox := Function.update s.inbox child.addr (s.inbox child.addr ++ [msg])
          asked := s.asked ++ (msg.request child.addr).toList } c.addr id =
          askedCount s c.addr id + if msg.isFor c.addr id then 1 else 0 := by
        rw [askedCount, List.countP_append, ← heq, Message.isFor]
        congr 1
        cases msg.request c.addr <;> simp
      rw [hqueued, hasked]
      show _ = sentCount s c.addr id + (_ + pendingCount s c.addr id)
      omega
    · have hqueued : queuedCount { s with
          inbox := Function.update s.inbox child.addr (s.inbox child.addr ++ [msg])
          asked := s.asked ++ (msg.request child.addr).toList } c.addr id =
          queuedCount s c.addr id := by
        simp [queuedCount, Function.update_of_ne heq]
      have hasked : askedCount { s with
          inbox := Function.update s.inbox child.addr (s.inbox child.addr ++ [msg])
          asked := s.asked ++ (msg.request child.addr).toList } c.addr id =
          askedCount s c.addr id := by
        have hzero : ((msg.request child.addr).toList).countP (Request.isFor c.addr id) = 0 := by
          cases msg <;> simp [Message.request, Request.isFor, Ne.symm heq]
        rw [askedCount, List.countP_append, hzero]
        rfl
      rw [hqueued, hasked]
      exact hsum
  own := h.own
  fatal := h.fatal

/-- A child that reports changes nothing for those that ask. -/
theorem kept_reports {s : Sys} (h : Kept s) {child : Child} (error : ℕ) (hlive : s.live child)
    (hdata : child.data ≠ none) (hreport : s.report child.addr = none) :
    Kept { s with
      inbox := Function.update s.inbox child.addr (s.inbox child.addr ++ [.done error])
      report := Function.update s.report child.addr (some error) } where
  moved := moved_congr h.moved rfl rfl rfl rfl
  fresh := by
    have hne (a : ℕ) (ha : s.next ≤ a) := ne_addr_of_le h.moved.tables hlive.1 ha
    exact
      { inbox := fun a ha => by simpa [Function.update_of_ne (hne a ha)] using h.fresh.inbox a ha
        told := h.fresh.told
        report := fun a ha => by
          simpa [Function.update_of_ne (hne a ha)] using h.fresh.report a ha
        asked := h.fresh.asked
        sent := h.fresh.sent
        data := h.fresh.data }
  mailbox := by
    intro c hc
    by_cases heq : c.addr = child.addr
    · obtain rfl := eq_of_addr h.moved.tables hc hlive.1 heq
      obtain ⟨hempty, htold⟩ := (h.mailbox c hc).fresh hdata hreport
      refine ⟨fun hnone => absurd hnone hdata, fun _ hnone => ?_, fun error' _ hsome => .inr ?_⟩
      · simp at hnone
      · simp only [Function.update_self, Option.some_inj] at hsome ⊢
        exact ⟨by rw [hempty, hsome]; rfl, htold⟩
    · exact (h.mailbox c hc).congr (Function.update_of_ne heq _ _) (Function.update_of_ne heq _ _) rfl
  answered := by
    refine answered_of h.fatal fun c hc hcdata id => ?_
    have hsum := h.count hc hcdata id
    have hne : c.addr ≠ child.addr := fun heq => by
      obtain rfl := eq_of_addr h.moved.tables hc.1 hlive.1 heq
      exact hdata hcdata
    have hqueued : queuedCount { s with
        inbox := Function.update s.inbox child.addr (s.inbox child.addr ++ [.done error])
        report := Function.update s.report child.addr (some error) } c.addr id =
        queuedCount s c.addr id := by
      simp [queuedCount, Function.update_of_ne hne]
    rw [hqueued]
    exact hsum
  own := by
    intro reply hreply hcommand hmatched
    obtain ⟨a, ha, hsome⟩ := h.own reply hreply hcommand hmatched
    have hne : a ≠ child.addr := fun heq => by simp [heq, hreport] at hsome
    exact ⟨a, ha, by simpa [Function.update_of_ne hne] using hsome⟩
  fatal := h.fatal

/-- So does the end of a child, which is only noticed later. -/
theorem kept_ends {s : Sys} (h : Kept s) (child : Child) :
    Kept { s with ended := Function.update s.ended child.addr true } where
  moved := moved_congr h.moved rfl rfl rfl rfl
  fresh := ⟨h.fresh.inbox, h.fresh.told, h.fresh.report, h.fresh.asked, h.fresh.sent, h.fresh.data⟩
  mailbox c hc := (h.mailbox c hc).congr rfl rfl rfl
  answered := by
    refine answered_of h.fatal fun c hc hcdata id => ?_
    obtain ⟨hmem, hio, hended⟩ := hc
    have hlive : s.live c := by
      refine ⟨hmem, hio, ?_⟩
      by_cases heq : c.addr = child.addr
      · simp [heq] at hended
      · simpa [Function.update_of_ne heq] using hended
    exact h.count hlive hcdata id
  own := h.own
  fatal := h.fatal

/-! ## Handling a message -/

/-- A state without the first message of a child. -/
def popped (s : Sys) (a : ℕ) (msgs : List Message) : Sys :=
  { s with inbox := Function.update s.inbox a msgs }

/-- Taking a message takes away one that was queued. -/
theorem queuedCount_popped {s : Sys} {a : ℕ} {msg : Message} {msgs : List Message}
    (hinbox : s.inbox a = msg :: msgs) (f id : ℕ) :
    queuedCount s f id =
      queuedCount (popped s a msgs) f id + if f = a ∧ msg.isFor a id = true then 1 else 0 := by
  by_cases heq : f = a
  · subst heq
    simp [queuedCount, popped, hinbox, List.countP_cons]
  · simp [queuedCount, popped, heq]

/-- A child whose message was taken may be asked of anew. -/
theorem fresh_popped {s : Sys} (h : Kept s) {child : Child} (hmem : child ∈ s.children)
    (msgs : List Message) : Fresh (popped s child.addr msgs) where
  inbox a ha := by
    have hne := ne_addr_of_le h.moved.tables hmem ha
    simpa [popped, Function.update_of_ne hne] using h.fresh.inbox a ha
  told := h.fresh.told
  report := h.fresh.report
  asked := h.fresh.asked
  sent := h.fresh.sent
  data := h.fresh.data

/-- The mailboxes when a fetch child has one message less. -/
theorem mailbox_popped {s : Sys} (h : Kept s) {child : Child} (hmem : child ∈ s.children)
    (hdata : child.data = none) {msg : Message} {msgs : List Message}
    (hinbox : s.inbox child.addr = msg :: msgs) :
    ∀ c ∈ s.children, Mailbox (popped s child.addr msgs) c := by
  intro c hc
  have hm := h.mailbox c hc
  by_cases heq : c.addr = child.addr
  · obtain rfl := eq_of_addr h.moved.tables hc hmem heq
    refine ⟨fun _ m hmsg => ?_, fun hne => absurd hdata hne, fun _ hne => absurd hdata hne⟩
    have hmsgs : m ∈ msgs := by simpa [popped] using hmsg
    exact hm.fetch hdata m (hinbox ▸ List.mem_cons_of_mem _ hmsgs)
  · exact hm.congr (Function.update_of_ne heq _ _) rfl rfl

/-- A request that has been taken out of the queue of a child. -/
theorem count_popped {s : Sys} (h : Kept s) {child : Child} {msg : Message} {msgs : List Message}
    (hinbox : s.inbox child.addr = msg :: msgs) {c : Child} (hc : s.live c) (hdata : c.data = none)
    (id : ℕ) :
    askedCount s c.addr id = sentCount s c.addr id +
      (queuedCount (popped s child.addr msgs) c.addr id + pendingCount s c.addr id +
        if c.addr = child.addr ∧ msg.isFor child.addr id = true then 1 else 0) := by
  have hsum := h.count hc hdata id
  have hqueued := queuedCount_popped hinbox c.addr id
  omega

/-- A request for which a child is started. -/
theorem kept_request {s : Sys} (h : Kept s) {child : Child} (hmem : child ∈ s.children)
    (hdata : child.data = none) {msg : Message} {msgs : List Message}
    (hinbox : s.inbox child.addr = msg :: msgs) {r : Request}
    (hr : msg.request child.addr = some r) {pid : ℕ} (hfree : s.freePid pid) :
    Kept (childStart pid (some child.addr) (some r) (popped s child.addr msgs)) := by
  have hchild : r.child = child.addr := by
    cases msg <;> simp [Message.request] at hr <;> rw [← hr]
  refine kept_childStart (s := popped s child.addr msgs)
    (moved_congr h.moved rfl rfl rfl rfl) (fresh_popped h hmem msgs)
    (mailbox_popped h hmem hdata hinbox) h.own h.fatal hfree _ ?_ ?_
  · intro r' hr'
    obtain rfl := Option.some_inj.mp hr'
    rw [hchild]
    exact addr_lt h.moved.tables hmem
  · intro c hc hcdata id
    have hsum := count_popped h hinbox hc hcdata id
    have hiff : (c.addr = child.addr ∧ msg.isFor child.addr id = true) ↔
        (some r).any (Request.isFor c.addr id) = true := by
      rw [Message.isFor, hr]
      by_cases heq : c.addr = child.addr
      · simp [heq]
      · simp [heq, Request.isFor, hchild, Ne.symm heq]
    simp only [hiff] at hsum
    exact hsum

/-- A request that fails in the parent is answered at once. -/
theorem kept_error {s : Sys} (h : Kept s) {child : Child} (hmem : child ∈ s.children)
    (hdata : child.data = none) {msgs : List Message} {id : ℕ} {wrback : Bool}
    (hinbox : s.inbox child.addr = .action id wrback :: msgs) :
    Kept { popped s child.addr msgs with
      sent := s.sent ++ [⟨child.addr, id, deliverFailure, false, none⟩] } where
  moved := moved_congr h.moved rfl rfl rfl rfl
  fresh :=
    { inbox := (fresh_popped h hmem msgs).inbox
      told := h.fresh.told
      report := h.fresh.report
      asked := h.fresh.asked
      sent := by
        intro reply hr
        rcases List.mem_append.mp hr with hr | hr
        · exact h.fresh.sent reply hr
        · rw [List.mem_singleton.mp hr]
          exact addr_lt h.moved.tables hmem
      data := h.fresh.data }
  mailbox c hc := by
    exact (mailbox_popped h hmem hdata hinbox c hc).congr rfl rfl rfl
  answered := by
    refine answered_of h.fatal fun c hc hcdata id' => ?_
    have hsum := count_popped h hinbox hc hcdata id'
    have hsent : sentCount { popped s child.addr msgs with
        sent := s.sent ++ [⟨child.addr, id, deliverFailure, false, none⟩] } c.addr id' =
        sentCount s c.addr id' +
          if c.addr = child.addr ∧ (Message.action id wrback).isFor child.addr id' = true then 1
          else 0 := by
      simp only [sentCount, List.countP_append, List.countP_singleton]
      congr 1
      by_cases heq : c.addr = child.addr
      · simp [heq, Message.isFor, Message.request, Request.isFor]
      · simp [heq, Ne.symm heq]
    rw [hsent]
    show askedCount s c.addr id' = _ + (queuedCount (popped s child.addr msgs) c.addr id' +
      pendingCount s c.addr id')
    omega
  own := by
    intro reply hreply hcommand hmatched
    rcases List.mem_append.mp hreply with hreply | hreply
    · exact h.own reply hreply hcommand hmatched
    · rw [List.mem_singleton.mp hreply] at hcommand
      cases hcommand
  fatal := h.fatal

/-- A fetch child is told to exit. -/
theorem kept_exit {s : Sys} (h : Kept s) {child : Child} (hmem : child ∈ s.children)
    (hdata : child.data = none) {msgs : List Message} (hinbox : s.inbox child.addr = .exit :: msgs) :
    Kept { popped s child.addr msgs with told := Function.update s.told child.addr true } where
  moved := moved_congr h.moved rfl rfl rfl rfl
  fresh :=
    { inbox := (fresh_popped h hmem msgs).inbox
      told := fun a ha => by
        have hne := ne_addr_of_le h.moved.tables hmem ha
        simpa [Function.update_of_ne hne] using h.fresh.told a ha
      report := h.fresh.report
      asked := h.fresh.asked
      sent := h.fresh.sent
      data := h.fresh.data }
  mailbox c hc := by
    have hm := mailbox_popped h hmem hdata hinbox c hc
    by_cases heq : c.addr = child.addr
    · obtain rfl := eq_of_addr h.moved.tables hc hmem heq
      exact ⟨hm.fetch, fun hne => absurd hdata hne, fun _ hne => absurd hdata hne⟩
    · exact hm.congr rfl rfl (Function.update_of_ne heq _ _)
  answered := by
    refine answered_of h.fatal fun c hc hcdata id => ?_
    have hsum := count_popped h hinbox hc hcdata id
    have hpending := pendingCount_told h.moved.tables hmem c.addr id
    have hnot : isPending s.told c.addr id child = false := by simp [isPending, hdata]
    rw [if_neg (by simp [Message.isFor, Message.request])] at hsum
    rw [hnot, if_neg Bool.false_ne_true] at hpending
    show askedCount s c.addr id = sentCount s c.addr id +
      (queuedCount (popped s child.addr msgs) c.addr id +
        s.children.countP (isPending (Function.update s.told child.addr true) c.addr id))
    unfold pendingCount at hsum
    omega
  own := h.own
  fatal := h.fatal

/-- The outcome of a delivery or command child is handled. -/
theorem kept_deliver {s : Sys} (h : Kept s) {child : Child} (hmem : child ∈ s.children)
    (hio : child.io = true) {r : Request} (hdata : child.data = some r) {error : ℕ}
    (hinbox : s.inbox child.addr = [.done error]) (htold : s.told child.addr = false)
    (hreport : s.report child.addr = some error) (calls : Calls) :
    Kept { popped s child.addr [] with
      told := Function.update s.told child.addr true
      sent := if s.open r.child && !s.ended r.child then
          s.sent ++ [⟨r.child, r.msgid, hook r error calls, r.command, some child.addr⟩]
        else s.sent } where
  moved := moved_congr h.moved rfl rfl rfl rfl
  fresh :=
    { inbox := (fresh_popped h hmem []).inbox
      told := fun a ha => by
        have hne := ne_addr_of_le h.moved.tables hmem ha
        simpa [Function.update_of_ne hne] using h.fresh.told a ha
      report := h.fresh.report
      asked := h.fresh.asked
      sent := by
        intro reply hr
        simp only at hr
        split_ifs at hr
        · rcases List.mem_append.mp hr with hr | hr
          · exact h.fresh.sent reply hr
          · rw [List.mem_singleton.mp hr]
            exact h.fresh.data child hmem r hdata
        · exact h.fresh.sent reply hr
      data := h.fresh.data }
  mailbox c hc := by
    have hm := h.mailbox c hc
    by_cases heq : c.addr = child.addr
    · obtain rfl := eq_of_addr h.moved.tables hc hmem heq
      refine ⟨fun hnone => ?_, fun _ hnone => ?_, fun _ _ _ => .inl (by simp [popped])⟩
      · simp [hdata] at hnone
      · simp [popped, hreport] at hnone
    · exact hm.congr (Function.update_of_ne heq _ _) rfl (Function.update_of_ne heq _ _)
  answered := by
    refine answered_of h.fatal fun c hc hcdata id => ?_
    have hlive : s.live c := hc
    have hsum := h.count hlive hcdata id
    have hne : c.addr ≠ child.addr := fun heq => by
      obtain rfl := eq_of_addr h.moved.tables hc.1 hmem heq
      simp [hdata] at hcdata
    have hqueued := queuedCount_popped hinbox c.addr id
    rw [if_neg fun hand => hne hand.1] at hqueued
    have hpending := pendingCount_told h.moved.tables hmem c.addr id
    have hchild : isPending s.told c.addr id child = r.isFor c.addr id := by
      simp [isPending, hio, htold, hdata]
    rw [hchild] at hpending
    have hsent : sentCount { popped s child.addr [] with
        told := Function.update s.told child.addr true
        sent := if s.open r.child && !s.ended r.child then
            s.sent ++ [⟨r.child, r.msgid, hook r error calls, r.command, some child.addr⟩]
          else s.sent } c.addr id =
        sentCount s c.addr id + if r.isFor c.addr id = true then 1 else 0 := by
      by_cases heq : r.child = c.addr
      · -- the fetch child lives, so that the answer is sent
        have hopen : (s.open r.child && !s.ended r.child) = true := by
          have hany : s.open r.child = true :=
            List.any_eq_true.mpr ⟨c, hlive.1, by simp [heq, hlive.2.1]⟩
          rw [hany, heq, hlive.2.2]
          rfl
        simp only [sentCount, if_pos hopen, List.countP_append, List.countP_singleton]
        simp [Request.isFor, heq]
      · have hnot : r.isFor c.addr id = false := by simp [Request.isFor, heq]
        rw [hnot, if_neg Bool.false_ne_true, Nat.add_zero]
        by_cases hopen : (s.open r.child && !s.ended r.child) = true
        · simp only [sentCount, if_pos hopen, List.countP_append, List.countP_singleton]
          simp [heq]
        · simp only [sentCount, if_neg hopen]
    rw [hsent]
    show askedCount s c.addr id = _ + (queuedCount (popped s child.addr []) c.addr id +
      s.children.countP (isPending (Function.update s.told child.addr true) c.addr id))
    unfold pendingCount at hsum
    omega
  own := by
    intro reply hreply hcommand hmatched
    have hold : reply ∈ s.sent → ∃ a, reply.reporter = some a ∧ s.report a = some 1 := fun hmem =>
      h.own reply hmem hcommand hmatched
    simp only at hreply
    split_ifs at hreply
    · rcases List.mem_append.mp hreply with hreply | hreply
      · exact hold hreply
      · obtain rfl := List.mem_singleton.mp hreply
        -- for a command the outcome is the reported one
        have hhook : hook r error calls = error := by
          have hcmd : r.command = true := hcommand
          simp [hook, hcmd]
        have hone : error = 1 := by simpa [matched, hhook] using hmatched
        exact ⟨child.addr, rfl, hone ▸ hreport⟩
    · exact hold hreply
  fatal := h.fatal

/-- Handling a message keeps the invariant. -/
theorem kept_handle {s s' : Sys} (h : Kept s) {child : Child} {calls : Calls}
    (hmem : child ∈ s.children) (hio : child.io = true) (hfree : s.freePid calls.pid)
    (hhandled : Handled s child calls) (hs : handle child calls s = some s') : Kept s' := by
  have hm := h.mailbox child hmem
  unfold handle at hs
  split at hs
  · cases hs
  · next msg msgs hinbox =>
    rw [Handled, hinbox, List.head?_cons] at hhandled
    dsimp only at hs
    cases hdata : child.data with
    | none =>
      rw [hdata] at hs
      obtain rfl := Option.some_inj.mp hs
      cases msg with
      | action id wrback =>
        simp only [parentFetch]
        split_ifs with hfail
        · -- the request has failed in the parent
          have hended : s.ended child.addr = false := by
            rcases hhandled with ⟨hreceives, hopens⟩ | hended
            · exfalso
              simp only [hreceives, Bool.not_true, Bool.false_or, Bool.and_eq_true] at hfail
              simp [hopens hfail.1] at hfail
            · exact hended
          rw [parentFetchError, if_neg (by simp [hended])]
          exact kept_error h hmem hdata hinbox
        · exact kept_request h hmem hdata hinbox rfl hfree
      | command id =>
        simp only [parentFetch]
        rw [if_neg (by simpa using hhandled)]
        exact kept_request h hmem hdata hinbox rfl hfree
      | done error =>
        have hfrom := hm.fetch hdata (.done error) (by simp [hinbox])
        cases hfrom
      | exit =>
        simp only [parentFetch, sendExit]
        rw [if_neg (by simpa using hhandled)]
        exact kept_exit h hmem hdata hinbox
    | some r =>
      rw [hdata] at hs
      obtain rfl := Option.some_inj.mp hs
      have hne : child.data ≠ none := by simp [hdata]
      -- a child that has sent something has sent its outcome
      cases hreport : s.report child.addr with
      | none =>
        have hempty := (hm.fresh hne hreport).1
        rw [hinbox] at hempty
        cases hempty
      | some error =>
        rcases hm.reported error hne hreport with hempty | ⟨hdone, htold⟩
        · rw [hinbox] at hempty
          cases hempty
        · rw [hinbox] at hdone
          obtain ⟨rfl, rfl⟩ := List.cons_eq_cons.mp hdone
          have hended : s.ended child.addr = false := hhandled
          have hkept := kept_deliver h hmem hio hdata hinbox htold hreport calls
          have hsame : (popped s child.addr []).open r.child = s.open r.child := rfl
          show Kept (sendExit child.addr (if ((popped s child.addr []).open r.child &&
            !s.ended r.child) = true then _ else _))
          rw [hsame, sendExit]
          by_cases hsend : (s.open r.child && !s.ended r.child) = true
          · rw [if_pos hsend, if_neg (by simpa [popped] using hended)]
            rw [if_pos hsend] at hkept
            exact hkept
          · rw [if_neg hsend, if_neg (by simpa [popped] using hended)]
            rw [if_neg hsend] at hkept
            exact hkept

/-- A child that nobody waits for is reaped. -/
theorem kept_reap {s : Sys} (h : Kept s) {child : Child} (hmem : child ∈ s.children)
    (hawaited : ¬ s.Awaited child) (status : Status) : Kept (reap child.pid status s) := by
  have hmoved := reap_moved h.moved hmem status
  rw [reap_eq h.moved.tables hmem] at hmoved ⊢
  have hsub : ∀ c ∈ s.children.erase child, c ∈ s.children := fun c => List.mem_of_mem_erase
  constructor
  · exact hmoved
  · exact ⟨h.fresh.inbox, h.fresh.told, h.fresh.report, h.fresh.asked, h.fresh.sent,
      fun c hc => h.fresh.data c (hsub c hc)⟩
  · intro c hc
    exact (h.mailbox c (hsub c hc)).congr rfl rfl rfl
  · refine answered_of h.fatal fun c hc hcdata id => ?_
    obtain ⟨hcmem, hcio, hcended⟩ := hc
    have hlive : s.live c := ⟨hsub c hcmem, hcio, hcended⟩
    have hsum := h.count hlive hcdata id
    have hnot : isPending s.told c.addr id child = false := by
      by_contra hpending
      simp only [isPending, Bool.not_eq_false, Bool.and_eq_true, Bool.not_eq_true',
        Option.any_eq_true] at hpending
      obtain ⟨⟨hio, htold⟩, r, hr, hfor⟩ := hpending
      simp only [Request.isFor, Bool.and_eq_true, decide_eq_true_eq] at hfor
      exact hawaited ⟨hio, htold, r, c, hr, hlive, hcdata, hfor.1.symm⟩
    have hcount := (List.perm_cons_erase hmem).countP_eq (isPending s.told c.addr id)
    rw [List.countP_cons, hnot, if_neg Bool.false_ne_true] at hcount
    show askedCount s c.addr id = sentCount s c.addr id + (queuedCount s c.addr id +
      (s.children.erase child).countP (isPending s.told c.addr id))
    unfold pendingCount at hsum
    omega
  · exact h.own
  · exact h.fatal

/-- Nobody waits for a child after a child has been reaped, when nobody did before. -/
theorem awaited_of_reap {s : Sys} (h : Tables s) {child : Child} (hmem : child ∈ s.children)
    (status : Status) {c : Child} (hc : (reap child.pid status s).Awaited c) : s.Awaited c := by
  rw [reap_eq h hmem] at hc
  obtain ⟨hio, htold, r, f, hr, ⟨hf, hfio, hfended⟩, hfdata, hfaddr⟩ := hc
  exact ⟨hio, htold, r, f, hr, ⟨List.mem_of_mem_erase hf, hfio, hfended⟩, hfdata, hfaddr⟩

/-- Reaping children that nobody waits for keeps it. -/
theorem kept_reapAll {s : Sys} (h : Kept s) {exits : List (ℕ × Status)} (hcan : s.canReap exits)
    (hawaited : ∀ child ∈ s.children, child.pid ∈ exits.map Prod.fst → ¬ s.Awaited child) :
    Kept (reapAll exits s) := by
  refine (reapAll_induction (I := fun t => Kept t ∧ ∀ child ∈ t.children,
    child.pid ∈ exits.map Prod.fst → ¬ t.Awaited child) (P := fun pid => pid ∈ exits.map Prod.fst)
    (fun t ht => ht.1.moved) (fun t ht child hmem hpid _ status => ?_) ⟨h, hawaited⟩
    (fun pid hpid => hpid) hcan).1
  refine ⟨kept_reap ht.1 hmem (ht.2 child hmem hpid) status, fun c hc hcpid hcaw => ?_⟩
  refine ht.2 c ?_ hcpid (awaited_of_reap ht.1.moved.tables hmem status hcaw)
  rw [reap_eq ht.1.moved.tables hmem] at hc
  exact List.mem_of_mem_erase hc

/-- The socket of a child that nobody waits for is found dead. -/
theorem kept_dead {s : Sys} (h : Kept s) {child : Child} (hmem : child ∈ s.children)
    (hawaited : ¬ s.Awaited child) : Kept (closeDead child.addr s) := by
  -- a child is in the new table with its socket closed, or as it was
  have hold : ∀ c ∈ (closeDead child.addr s).children, ∃ d ∈ s.children, d.addr = c.addr ∧
      d.data = c.data ∧ (c.io = true → c = d ∧ c.addr ≠ child.addr) := by
    intro c hc
    obtain ⟨d, hd, rfl⟩ := List.mem_map.mp hc
    refine ⟨d, hd, ?_⟩
    split_ifs with heq
    · exact ⟨rfl, rfl, nofun⟩
    · exact ⟨rfl, rfl, fun _ => ⟨rfl, heq⟩⟩
  constructor
  · exact closeDead_moved h.moved child.addr
  · refine ⟨h.fresh.inbox, h.fresh.told, h.fresh.report, h.fresh.asked, h.fresh.sent, ?_⟩
    intro c hc r hr
    obtain ⟨d, hd, -, hdata, -⟩ := hold c hc
    exact h.fresh.data d hd r (hdata ▸ hr)
  · intro c hc
    obtain ⟨d, hd, haddr, hdata, -⟩ := hold c hc
    have hm := h.mailbox d hd
    exact ⟨fun hnone => haddr ▸ hm.fetch (hdata.trans hnone),
      fun hne hnone => haddr ▸ hm.fresh (hdata ▸ hne) (haddr ▸ hnone),
      fun error hne hsome => haddr ▸ hm.reported error (hdata ▸ hne) (haddr ▸ hsome)⟩
  · refine answered_of h.fatal fun c hc hcdata id => ?_
    obtain ⟨hcmem, hcio, hcended⟩ := hc
    obtain ⟨d, hd, -, -, hsame⟩ := hold c hcmem
    obtain ⟨rfl, -⟩ := hsame hcio
    have hlive : s.live c := ⟨hd, hcio, hcended⟩
    have hsum := h.count hlive hcdata id
    have hcount : (closeDead child.addr s).children.countP (isPending s.told c.addr id) =
        s.children.countP (isPending s.told c.addr id) := by
      rw [closeDead, List.countP_map]
      refine List.countP_congr fun x hx => ?_
      show isPending s.told c.addr id (if x.addr = child.addr then { x with io := false } else x) =
        true ↔ _
      split_ifs with heq
      · obtain rfl := eq_of_addr h.moved.tables hx hmem heq
        refine ⟨fun hp => by simp [isPending] at hp, fun hp => ?_⟩
        simp only [isPending, Bool.and_eq_true, Bool.not_eq_true', Option.any_eq_true] at hp
        obtain ⟨⟨hio, htold⟩, r, hr, hfor⟩ := hp
        simp only [Request.isFor, Bool.and_eq_true, decide_eq_true_eq] at hfor
        exact absurd ⟨hio, htold, r, c, hr, hlive, hcdata, hfor.1.symm⟩ hawaited
      · exact Iff.rfl
    show askedCount s c.addr id = sentCount s c.addr id + (queuedCount s c.addr id +
      (closeDead child.addr s).children.countP (isPending s.told c.addr id))
    rw [hcount]
    exact hsum
  · exact h.own
  · exact h.fatal

/-- A step that loses nothing. -/
theorem kept_step {s s' : Sys} {act : Act} (h : Kept s) (hg : Keeps s act)
    (hs : step s act = some s') : Kept s' := by
  cases act with
  | start pid =>
    simp only [step] at hs
    split_ifs at hs with hcan
    obtain rfl := Option.some_inj.mp hs
    exact kept_start h hcan.2
  | asks child msg =>
    simp only [step] at hs
    split_ifs at hs with hcan
    obtain rfl := Option.some_inj.mp hs
    exact kept_asks h hcan.1 hcan.2.1 hcan.2.2
  | reports child error =>
    simp only [step] at hs
    split_ifs at hs with hcan
    obtain rfl := Option.some_inj.mp hs
    exact kept_reports h error hcan.1 hcan.2.1 hcan.2.2
  | ends child =>
    simp only [step] at hs
    split_ifs at hs
    obtain rfl := Option.some_inj.mp hs
    exact kept_ends h child
  | handle child calls =>
    simp only [step] at hs
    split_ifs at hs with hcan
    exact kept_handle h hcan.2.1 hcan.2.2.1 hcan.2.2.2 hg hs
  | wait exits noChild =>
    simp only [step] at hs
    split_ifs at hs with hcan
    rw [waitChildren_results] at hs
    obtain rfl := Option.some_inj.mp hs
    have hkept := kept_reapAll h hcan.2 hg
    exact ⟨moved_congr hkept.moved rfl rfl rfl rfl,
      ⟨hkept.fresh.inbox, hkept.fresh.told, hkept.fresh.report, hkept.fresh.asked,
        hkept.fresh.sent, hkept.fresh.data⟩,
      fun c hc => (hkept.mailbox c hc).congr rfl rfl rfl, hkept.answered, hkept.own, hkept.fatal⟩
  | dead child =>
    simp only [step] at hs
    split_ifs at hs with hcan
    obtain rfl := Option.some_inj.mp hs
    exact kept_dead h hcan.2.1 hg
  | fails => exact hg.elim

/-! ## The child that has reported -/

/-- Who was started for a request stays so while children keep their data. -/
theorem Sys.startedFor.mono {s s' : Sys} {a : ℕ} {r : Request} (h : s.startedFor a r)
    (hchildren : ∀ child ∈ s.deadChildren ++ s.children,
      ∃ child' ∈ s'.deadChildren ++ s'.children,
        child'.addr = child.addr ∧ child'.data = child.data) : s'.startedFor a r := by
  obtain ⟨child, hmem, haddr, hdata⟩ := h
  obtain ⟨child', hmem', haddr', hdata'⟩ := hchildren child hmem
  exact ⟨child', hmem', haddr'.trans haddr, hdata'.trans hdata⟩

theorem SameTables.startedFor {s s' : Sys} {a : ℕ} {r : Request} (hs : SameTables s s')
    (h : s.startedFor a r) : s'.startedFor a r := by
  unfold Sys.startedFor
  rw [hs.children, hs.deadChildren]
  exact h

theorem startedFor_childStart {s : Sys} {a : ℕ} {r : Request} (h : s.startedFor a r) (pid : ℕ)
    (parent : Option ℕ) (data : Option Request) : (childStart pid parent data s).startedFor a r :=
  h.mono fun child hmem => by
    refine ⟨child, ?_, rfl, rfl⟩
    rcases List.mem_append.mp hmem with hmem | hmem
    · exact List.mem_append_left _ hmem
    · exact List.mem_append_right _ (List.mem_append_left _ hmem)

/-- A child that is reaped is still known. -/
theorem startedFor_reap {s : Sys} {a : ℕ} {r : Request} (h : s.startedFor a r) (hs : Tables s)
    {child : Child} (hmem : child ∈ s.children) (status : Status) :
    (reap child.pid status s).startedFor a r := by
  rw [reap_eq hs hmem]
  refine h.mono fun c hc => ?_
  by_cases heq : c = child
  · refine ⟨{ child with io := false }, ?_, heq ▸ rfl, heq ▸ rfl⟩
    exact List.mem_append_left _ (List.mem_append_right _ (List.mem_singleton_self _))
  · refine ⟨c, ?_, rfl, rfl⟩
    rcases List.mem_append.mp hc with hc | hc
    · exact List.mem_append_left _ (List.mem_append_left _ hc)
    · exact List.mem_append_right _ ((List.mem_erase_of_ne heq).mpr hc)

theorem startedFor_closeDead {s : Sys} {a : ℕ} {r : Request} (h : s.startedFor a r) (addr : ℕ) :
    (closeDead addr s).startedFor a r :=
  h.mono fun child hmem => by
    rcases List.mem_append.mp hmem with hmem | hmem
    · exact ⟨child, List.mem_append_left _ hmem, rfl, rfl⟩
    · refine ⟨_, List.mem_append_right _ (List.mem_map_of_mem hmem), ?_, ?_⟩ <;> split_ifs <;> rfl

/-- What the parent sends about a request is an error of its own. -/
theorem sent_parentFetch {a : ℕ} {msg : Message} {calls : Calls} {s : Sys} :
    ∀ reply ∈ (parentFetch a msg calls s).sent, reply ∈ s.sent ∨ reply.reporter = none := by
  have herror (id : ℕ) (command : Bool) :
      ∀ reply ∈ (parentFetchError a id command s).sent, reply ∈ s.sent ∨ reply.reporter = none := by
    intro reply hreply
    unfold parentFetchError at hreply
    split_ifs at hreply
    · exact .inl hreply
    · rcases List.mem_append.mp hreply with hreply | hreply
      · exact .inl hreply
      · exact .inr (congrArg Reply.reporter (List.mem_singleton.mp hreply))
  intro reply hreply
  cases msg with
  | action id wrback =>
    simp only [parentFetch] at hreply
    split_ifs at hreply
    · exact herror id false reply hreply
    · exact .inl hreply
  | command id =>
    simp only [parentFetch] at hreply
    split_ifs at hreply
    · exact herror id true reply hreply
    · exact .inl hreply
  | done error => exact .inl hreply
  | exit =>
    simp only [parentFetch, sendExit] at hreply
    split_ifs at hreply <;> exact .inl hreply

/-- What it sends about an outcome answers the request of the child. -/
theorem sent_parentDeliver {a : ℕ} {r : Request} {msg : Message} {calls : Calls} {s : Sys} :
    ∀ reply ∈ (parentDeliver a r msg calls s).sent,
      reply ∈ s.sent ∨ reply.reporter = some a ∧ reply.answers r := by
  intro reply hreply
  cases msg with
  | done error =>
    simp only [parentDeliver, sendExit] at hreply
    split_ifs at hreply
    all_goals first
      | exact .inl hreply
      | rcases List.mem_append.mp hreply with hreply | hreply
        · exact .inl hreply
        · rw [List.mem_singleton.mp hreply]
          exact .inr ⟨rfl, rfl, rfl, rfl⟩
  | _ => exact .inl hreply

/-- An outcome is brought for the request that its child was started for. -/
def Reporters (s : Sys) : Prop :=
  ∀ reply ∈ s.sent, ∀ a, reply.reporter = some a → ∃ r, s.startedFor a r ∧ reply.answers r

/-- Reports that were right stay right. -/
theorem Reporters.mono {s s' : Sys} (h : Reporters s) (hsent : s'.sent = s.sent)
    (hstarted : ∀ a r, s.startedFor a r → s'.startedFor a r) : Reporters s' := by
  intro reply hreply a ha
  obtain ⟨r, hr, hanswers⟩ := h reply (hsent ▸ hreply) a ha
  exact ⟨r, hstarted a r hr, hanswers⟩

/-- A message is handled about the child that sent it. -/
theorem reporters_handle {s s' : Sys} (h : Reporters s) {child : Child} {calls : Calls}
    (hmem : child ∈ s.children) (hs : handle child calls s = some s') : Reporters s' := by
  unfold handle at hs
  split at hs
  · cases hs
  · next msg msgs hinbox =>
    dsimp only at hs
    split at hs
    · -- a fetch child has asked: what it is sent at once is an error, and comes from no child
      obtain rfl := Option.some_inj.mp hs
      intro reply hreply a ha
      rcases sent_parentFetch reply hreply with hold | hnone
      · obtain ⟨r, hr, hanswers⟩ := h reply hold a ha
        refine ⟨r, ?_, hanswers⟩
        rcases parentFetch_tables child.addr msg calls
          { s with inbox := Function.update s.inbox child.addr msgs } with hsame | ⟨q, hstart⟩
        · exact hsame.startedFor hr
        · rw [hstart]
          exact startedFor_childStart hr _ _ _
      · rw [hnone] at ha
        cases ha
    · next q hq =>
      -- a delivery or command child has reported about the request that it was started for
      obtain rfl := Option.some_inj.mp hs
      intro reply hreply a ha
      have hsame := parentDeliver_tables child.addr q msg calls
        { s with inbox := Function.update s.inbox child.addr msgs }
      rcases sent_parentDeliver reply hreply with hold | ⟨hreporter, hanswers⟩
      · obtain ⟨r, hr, hanswers⟩ := h reply hold a ha
        exact ⟨r, hsame.startedFor hr, hanswers⟩
      · rw [hreporter] at ha
        obtain rfl := Option.some_inj.mp ha
        have hchild : s.startedFor child.addr q :=
          ⟨child, List.mem_append_right _ hmem, rfl, hq⟩
        exact ⟨q, hsame.startedFor hchild, hanswers⟩

/-- Each step keeps the reporters right. -/
theorem reporters_step {s s' : Sys} {act : Act} (hmoved : Moved s) (h : Reporters s)
    (hs : step s act = some s') : Reporters s' := by
  cases act with
  | start pid =>
    simp only [step] at hs
    split_ifs at hs
    obtain rfl := Option.some_inj.mp hs
    exact h.mono rfl fun _ _ hr => startedFor_childStart hr _ _ _
  | handle child calls =>
    simp only [step] at hs
    split_ifs at hs with hcan
    exact reporters_handle h hcan.2.1 hs
  | wait exits noChild =>
    simp only [step] at hs
    split_ifs at hs with hcan
    rw [waitChildren_results] at hs
    obtain rfl := Option.some_inj.mp hs
    refine (reapAll_induction (I := fun t => Moved t ∧ Reporters t) (P := fun _ => True)
      (fun _ ht => ht.1) (fun t ht child hmem _ _ status => ⟨reap_moved ht.1 hmem status, ?_⟩)
      ⟨hmoved, h⟩ (fun _ _ => trivial) hcan.2).2
    refine ht.2.mono ?_ fun _ _ hr => startedFor_reap hr ht.1.tables hmem status
    rw [reap_eq ht.1.tables hmem]
  | dead child =>
    simp only [step] at hs
    split_ifs at hs
    obtain rfl := Option.some_inj.mp hs
    exact h.mono rfl fun _ _ hr => startedFor_closeDead hr child.addr
  | _ =>
    simp only [step] at hs
    split_ifs at hs
    obtain rfl := Option.some_inj.mp hs
    exact h

/-! ## Runs -/

/-- At first nothing has been asked. -/
theorem kept_init : Kept {} where
  moved := ⟨⟨List.nodup_nil, List.Perm.refl _⟩, rfl⟩
  fresh := ⟨fun _ _ => rfl, fun _ _ => rfl, fun _ _ => rfl, nofun, nofun, nofun⟩
  mailbox := nofun
  answered := fun _ hlive => nomatch hlive.1
  own := nofun
  fatal := rfl

/-- In a run of steps that lose nothing, each request of a fetch child that lives has been answered
once or is still to be, and a match is what the command child of the request has reported. -/
theorem answered_of_keeps {s : Sys} (h : Reach step Keeps {} s) : Answered s ∧ OwnOutcome s := by
  obtain ⟨hkept, hreporters⟩ : Kept s ∧ Reporters s := by
    refine h.invariant (I := fun s => Kept s ∧ Reporters s) ⟨kept_init, nofun⟩
      fun _ _ _ hI hg hs => ⟨kept_step hI.1 hg hs, reporters_step hI.1.moved hI.2 hs⟩
  refine ⟨hkept.answered, fun reply hreply hcommand hmatched => ?_⟩
  obtain ⟨a, ha, hsome⟩ := hkept.own reply hreply hcommand hmatched
  obtain ⟨r, hr, hanswers⟩ := hreporters reply hreply a ha
  exact ⟨a, r, ha, hsome, hr, hanswers⟩

/-- A fetch child with the pid 7. -/
def fetchChild : Child := ⟨0, 7, none, true, none⟩

/-- The child with the pid 8 that works on its request. -/
def deliveryChild (command : Bool) : Child := ⟨1, 8, some 0, true, some ⟨0, 3, command, false⟩⟩

/-- The fetch child asks for a command, which matches. -/
def matchedCommand : List Act :=
  [.start 7, .asks fetchChild (.command 3), .handle fetchChild { pid := 8 },
    .reports (deliveryChild true) 1, .handle (deliveryChild true) {}, .ends (deliveryChild true),
    .wait [(8, .exited 0)] false]

/-- A condition `command` is asked about, run by a child, and answered. -/
theorem answered_of_keeps_matched :
    (exec (guarded step fun s act => decide (Keeps s act)) {} matchedCommand).isSome = true ∧
      ∀ s, exec (guarded step fun s act => decide (Keeps s act)) {} matchedCommand = some s →
        Answered s ∧ OwnOutcome s :=
  ⟨by decide, fun _ hs =>
    answered_of_keeps (reach_of_execGuarded (fun _ _ hg => of_decide_eq_true hg) hs)⟩

/-- A delivery child is killed before it has reported. -/
def killedDelivery : List Act :=
  [.start 7, .asks fetchChild (.action 3 false), .handle fetchChild { pid := 8 },
    .ends (deliveryChild false), .wait [(8, .signaled 9)] false]

/-- The mail of a command cannot be received. -/
def failedCommand : List Act :=
  [.start 7, .asks fetchChild (.command 3), .handle fetchChild { receives := false, pid := 8 }]

/-- A request whose child is killed is not answered, and one whose mail cannot be received gets an
answer that no child has reported. -/
theorem unanswered_or_foreign :
    (∃ s, exec step {} killedDelivery = some s ∧ ¬ Answered s) ∧
      ∃ s, exec step {} failedCommand = some s ∧ ¬ OwnOutcome s := by
  constructor
  · refine ⟨_, rfl, fun hanswered => ?_⟩
    have hcount := hanswered fetchChild (by decide) rfl 3
    revert hcount
    decide
  · refine ⟨_, rfl, fun hown => ?_⟩
    obtain ⟨a, r, ha, -⟩ := hown ⟨0, 3, 1, true, none⟩ (by decide) rfl rfl
    cases ha

end Fdm.Parent
