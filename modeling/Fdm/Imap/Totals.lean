import Fdm.Imap.Theorems
import Mathlib.Algebra.GroupWithZero.Nat

/-!
# What polling counts

`imap_state_search2` appends to the want list, and only a fetch takes something off it. A poll
closes each folder behind its search, so that the search of the next one finds the want list as it
was left, and `imap_state_search3` adds the length of the whole list to the total (`Counted`).

* `totals_iff`: when the total of a poll is the number of the messages found.
-/

namespace Fdm.Imap

open Fdm.Fetch Lib.Runs

/-- A poll, and what the searches have returned in the folders that have been searched. -/
structure Poll where
  loop : Loop Env State FetchImapMail
  found : List (List ℕ) := []

/-- What a search has returned, in the step that reads it. -/
def newlyFound (l l' : Loop Env State FetchImapMail) : List (List ℕ) :=
  if l.fctx.state = .search2 ∧ l'.fctx.state = .search3 then [l'.data.hist.selected] else []

/-- A step of the fetch loop, with what it finds. -/
def pollStep (conf : Conf) (pton : List Char → Option (List Char)) (p : Poll) (a : Act Input) :
    Option Poll :=
  (step (fetcher conf pton) conf p.loop a).map fun l => ⟨l, p.found ++ newlyFound p.loop l⟩

/-- `imap_total`. -/
def imapTotal (e : Env) : UInt32 := UInt32.ofNat e.data.foldersTotal

/-- The number of messages that the searches have returned. -/
def messages (found : List (List ℕ)) : ℕ := (found.map List.length).sum

/-- How often a message is counted again: once for each search behind the one that found it. -/
def recount : List (List ℕ) → ℕ
  | [] => 0
  | uids :: found => uids.length * found.length + recount found

/-! ## The totals of a run -/

/-- A search counts all the messages in front of it again. -/
theorem recount_snoc (found : List (List ℕ)) (uids : List ℕ) :
    recount (found ++ [uids]) = recount found + messages found := by
  induction found with
  | nil => rfl
  | cons x found ih =>
    have hmessages : messages (x :: found) = x.length + messages found := by
      simp only [messages, List.map_cons, List.sum_cons]
    have hlength : (found ++ [uids]).length = found.length + 1 := by
      rw [List.length_append, List.length_singleton]
    rw [List.cons_append, recount, recount, ih, hmessages, hlength, Nat.mul_add]
    omega

/-- Nothing is counted again when each search in front of another returns nothing. -/
theorem recount_eq_zero {found : List (List ℕ)} :
    recount found = 0 ↔ ∀ front uids behind, found = front ++ uids :: behind → behind ≠ [] →
      uids = [] := by
  induction found with
  | nil =>
    refine ⟨fun _ front uids behind heq => ?_, fun _ => rfl⟩
    simp at heq
  | cons x found ih =>
    rw [recount, Nat.add_eq_zero_iff, ih, Nat.mul_eq_zero, List.length_eq_zero_iff,
      List.length_eq_zero_iff]
    constructor
    · intro h front uids behind heq hbehind
      cases front with
      | nil =>
        have hcons := List.cons.inj heq
        rw [← hcons.1]
        apply h.1.resolve_right
        rw [hcons.2]
        exact hbehind
      | cons y front => exact h.2 front uids behind (List.cons.inj heq).2 hbehind
    · intro h
      constructor
      · by_cases hfound : found = []
        · exact .inr hfound
        · exact .inl (h [] x found rfl hfound)
      · intro front uids behind heq
        apply h (x :: front) uids behind
        rw [heq, List.cons_append]

/-- The want list has all that has been found. The total has it too, each message once and once
more for each search behind it; in front of `imap_state_search3` the last search is not in it. -/
structure Counted (found : List (List ℕ)) (s : State) (e : Env) : Prop where
  wanted : e.data.wanted = found.flatten
  total : s ≠ .search3 → e.data.foldersTotal = messages found + recount found
  pending : s = .search3 → ∃ done uids, found = done ++ [uids] ∧
    e.data.foldersTotal = messages done + recount done

/-! ## The calls that count nothing -/

/-- The states of a poll, once it has started, in which no search result waits to be counted. -/
def State.counts (s : State) : Bool := s.front && s ≠ .init && s ≠ .search3

/-- A call that leaves the want list and the total alone, and does not get to a search result. -/
structure Still (c : Ctx) (e : Env) (r : Result) : Prop where
  code : r.1 ≠ .mail ∧ r.1 ≠ .exit
  flags : r.2.1.flags = c.flags
  state : r.2.1.state.counts = true
  wanted : r.2.2.data.wanted = e.data.wanted
  total : r.2.2.data.foldersTotal = e.data.foldersTotal

section

variable {conf : Conf} {pton : List Char → Option (List Char)} {c : Ctx} {e e' : Env} {s : State}

theorem still_putln {cmd : Cmd} (h : c.state.counts = true) (hs : s.counts = true)
    (hwanted : e'.data.wanted = e.data.wanted)
    (htotal : e'.data.foldersTotal = e.data.foldersTotal) : Still c e (putln cmd s c e') := by
  unfold putln
  split_ifs
  · exact ⟨⟨nofun, nofun⟩, rfl, h, hwanted, htotal⟩
  · exact ⟨⟨nofun, nofun⟩, rfl, hs, hwanted, htotal⟩

theorem still_putTagged {cmd : Cmd} (h : c.state.counts = true) (hs : s.counts = true)
    (hwanted : e'.data.wanted = e.data.wanted)
    (htotal : e'.data.foldersTotal = e.data.foldersTotal) : Still c e (putTagged cmd s c e') :=
  still_putln h hs hwanted htotal

/-- A failure, and waiting. -/
theorem still_stay {code : FetchCode} {b : List Received} (h : c.state.counts = true)
    (hmail : code ≠ .mail) (hexit : code ≠ .exit) : Still c e (code, c, { e with inbuf := b }) :=
  ⟨⟨hmail, hexit⟩, rfl, h, rfl, rfl⟩

/-- The next state is called at once. -/
theorem still_again (hs : s.counts = true) (hwanted : e'.data.wanted = e.data.wanted)
    (htotal : e'.data.foldersTotal = e.data.foldersTotal) :
    Still c e (.again, { c with state := s }, e') :=
  ⟨⟨nofun, nofun⟩, rfl, hs, hwanted, htotal⟩

theorem still_getln {type : LineType} {k : List Char → Env → Result} (h : c.state.counts = true)
    (hk : ∀ line b, Still c e (k line { e with inbuf := b })) :
    Still c e (imapGetln type c e k) :=
  imapGetln_cases (P := Still c e) (still_stay h nofun nofun) (fun _ => still_stay h nofun nofun) hk

theorem still_getOkay {k : Env → Result} (h : c.state.counts = true)
    (hk : ∀ b, Still c e (k { e with inbuf := b })) : Still c e (getOkay c e k) := by
  refine still_getln h fun line b => ?_
  split_ifs
  · exact hk b
  · exact still_stay h nofun nofun

theorem still_select3 (h : c.state.counts = true) : Still c e (stateSelect3 c e) := by
  unfold stateSelect3
  generalize e.inbuf = b
  -- over the lines that have arrived
  induction b with
  | nil => exact still_stay h nofun nofun
  | cons r b ih =>
    cases r with
    | broken => exact still_stay h nofun nofun
    | line s stale =>
      unfold select3Loop
      split
      · split
        · exact still_again rfl rfl rfl
        · exact ih
      · exact still_stay h nofun nofun

variable (conf pton) in
/-- All calls of a poll but those that start it, that search and that end it. -/
theorem still_state (h : c.state.counts = true) (hsearch2 : c.state ≠ .search2)
    (hquit : c.state ≠ .quit) :
    Still c e (state conf pton c e) := by
  unfold state
  cases hs : c.state with
  | init => rw [hs] at h; exact absurd h (by decide)
  | search2 => exact absurd hs hsearch2
  | search3 => rw [hs] at h; exact absurd h (by decide)
  | quit => exact absurd hs hquit
  | connect =>
    dsimp only
    unfold stateConnect
    split_ifs
    · exact still_stay h nofun nofun
    · exact ⟨⟨nofun, nofun⟩, rfl, rfl, rfl, rfl⟩
  | connected =>
    refine still_getln h fun line b => ?_
    dsimp only
    split_ifs
    · exact still_again rfl rfl rfl
    · exact still_stay h nofun nofun
    · exact still_putTagged h rfl rfl rfl
  | capability1 =>
    refine still_getln h fun line b => ?_
    dsimp only
    split_ifs
    · exact still_stay h nofun nofun
    · exact still_again rfl rfl rfl
  | capability2 =>
    refine still_getOkay h fun b => ?_
    dsimp only
    split_ifs
    · exact still_putTagged h rfl rfl rfl
    · split
      · exact still_stay h nofun nofun
      · exact still_putTagged h rfl rfl rfl
    · exact still_stay h nofun nofun
  | cramMd5Auth =>
    refine still_getln h fun line b => ?_
    dsimp only
    split_ifs
    · exact still_stay h nofun nofun
    · split
      · exact still_stay h nofun nofun
      · exact still_putln h rfl rfl rfl
  | login =>
    refine still_getln h fun line b => ?_
    split
    · exact still_putln h rfl rfl rfl
    · exact still_stay h nofun nofun
  | user =>
    refine still_getln h fun line b => ?_
    split
    · exact still_stay h nofun nofun
    · exact still_putln h rfl rfl rfl
  | pass =>
    refine still_getOkay h fun b => ?_
    exact still_again rfl rfl rfl
  | select1 =>
    dsimp only
    unfold stateSelect1
    split
    · exact still_stay h nofun nofun
    · exact still_putTagged h rfl rfl rfl
  | select2 =>
    refine still_getln h fun line b => ?_
    dsimp only
    split
    · exact still_stay h nofun nofun
    · exact still_putln h rfl rfl rfl
  | select3 => exact still_select3 h
  | select4 =>
    refine still_getOkay h fun b => ?_
    dsimp only
    split_ifs
    · exact still_putTagged h rfl rfl rfl
    · exact still_again rfl rfl rfl
  | search1 => exact still_putTagged h rfl rfl rfl
  | close =>
    refine still_getOkay h fun b => ?_
    dsimp only
    split_ifs
    · exact still_again rfl rfl rfl
    · exact still_putTagged h rfl rfl rfl
  | next => rw [hs] at h; exact absurd h (by decide)
  | body => rw [hs] at h; exact absurd h (by decide)
  | line => rw [hs] at h; exact absurd h (by decide)
  | mail => rw [hs] at h; exact absurd h (by decide)
  | commit => rw [hs] at h; exact absurd h (by decide)
  | expunge => rw [hs] at h; exact absurd h (by decide)

/-! ## The calls of a poll -/

/-- What holds of a poll while it goes on. -/
structure Polling (found : List (List ℕ)) (c : Ctx) (e : Env) : Prop where
  flag : c.flags.poll = true
  front : c.state.front = true
  start : c.state = .init → found = []
  counted : Counted found c.state e

/-- What a call of a poll leaves behind, with the search result that it has read. -/
def Polled (found : List (List ℕ)) (c : Ctx) : Result → Prop
  | (.again, c', e') | (.block, c', e') =>
    Polling (found ++ if c.state = .search2 ∧ c'.state = .search3 then [e'.hist.selected] else [])
      c' e'
  | (.exit, _, e') => c.state = .quit ∧ e'.data.foldersTotal = messages found + recount found
  | (.mail, _, _) => False
  | (.error, _, _) | (.crash, _, _) => True

variable {found : List (List ℕ)}

theorem polled_of_still {r : Result} (h : Polling found c e) (hstate : c.state ≠ .search3)
    (hstill : Still c e r) : Polled found c r := by
  obtain ⟨code, c', e'⟩ := r
  have hcounts : c'.state.counts = true := hstill.state
  simp only [State.counts, Bool.and_eq_true, decide_eq_true_eq] at hcounts
  have hnext : Polling (found ++ if c.state = .search2 ∧ c'.state = .search3 then
      [e'.hist.selected] else []) c' e' := by
    rw [if_neg fun hboth => hcounts.2 hboth.2, List.append_nil]
    have htotal := h.counted.total hstate
    exact ⟨(congrArg FetchFlags.poll hstill.flags).trans h.flag, hcounts.1.1,
      fun heq => absurd heq hcounts.1.2,
      hstill.wanted.trans h.counted.wanted, fun _ => hstill.total.trans htotal,
      fun heq => absurd heq hcounts.2⟩
  cases code with
  | again => exact hnext
  | block => exact hnext
  | mail => exact absurd rfl hstill.code.1
  | exit => exact absurd rfl hstill.code.2
  | error => trivial
  | crash => trivial

theorem polled_init (h : Polling found c e) (hs : c.state = .init) : Polled found c (stateInit c e) := by
  show Polling (found ++ if c.state = .search2 ∧ State.connect = .search3 then _ else []) _ _
  rw [if_neg (by simp), List.append_nil, h.start hs]
  exact ⟨h.flag, rfl, nofun, rfl, fun _ => rfl, nofun⟩

/-- A search result goes behind those that are in the want list. -/
theorem polled_search2 (h : Polling found c e) (hs : c.state = .search2) :
    Polled found c (stateSearch2 c e) := by
  have hne : c.state ≠ .search3 := by rw [hs]; exact nofun
  have hstay : ∀ b, Polling (found ++ if c.state = .search2 ∧ c.state = .search3 then
      [e.hist.selected] else []) c { e with inbuf := b } := by
    intro b
    rw [if_neg fun hboth => hne hboth.2, List.append_nil]
    exact ⟨h.flag, h.front, h.start, h.counted.wanted, h.counted.total, h.counted.pending⟩
  unfold stateSearch2
  refine imapGetln_cases (P := Polled found c) (hstay []) (fun _ => trivial) fun line b => ?_
  split_ifs with hheader
  · trivial
  · split
    · trivial
    · next uids _ =>
      show Polling (found ++ if c.state = .search2 ∧ State.search3 = .search3 then [uids] else []) _ _
      rw [if_pos ⟨hs, rfl⟩]
      refine ⟨h.flag, rfl, nofun, ?_, fun hnot => absurd rfl hnot, fun _ => ?_⟩
      · show e.data.wanted ++ uids = (found ++ [uids]).flatten
        rw [h.counted.wanted, List.flatten_append, List.flatten_singleton]
      · exact ⟨found, uids, rfl, h.counted.total hne⟩

/-- The length of the want list is added to the total. -/
theorem polled_search3 (h : Polling found c e) (hs : c.state = .search3) :
    Polled found c (stateSearch3 c e) := by
  have hne : c.state ≠ .search2 := by rw [hs]; exact nofun
  have hnone : ∀ (s : State) (uids : List ℕ),
      (found ++ if c.state = .search2 ∧ s = .search3 then [uids] else []) = found := by
    intro s uids
    rw [if_neg fun hboth => hne hboth.1, List.append_nil]
  unfold stateSearch3
  refine imapGetln_cases (P := Polled found c) ?_ (fun _ => trivial) fun line b => ?_
  · show Polling (found ++ _) c _
    rw [hnone]
    exact ⟨h.flag, h.front, h.start, h.counted.wanted, h.counted.total, h.counted.pending⟩
  · split_ifs with hokay
    · dsimp only
      rw [if_pos (.inr h.flag)]
      unfold putTagged putln
      split_ifs
      · trivial
      · show Polling (found ++ _) _ _
        rw [hnone]
        refine ⟨h.flag, rfl, nofun, h.counted.wanted, fun _ => ?_, nofun⟩
        obtain ⟨done, uids, hfound, htotal⟩ := h.counted.pending hs
        show e.data.foldersTotal + e.data.wanted.length = messages found + recount found
        have hlength : e.data.wanted.length = messages found := by
          rw [h.counted.wanted, List.length_flatten, messages]
        rw [hlength, htotal, hfound, recount_snoc]
        omega
    · trivial

theorem polled_quit (h : Polling found c e) (hs : c.state = .quit) :
    Polled found c (stateQuit c e) := by
  have hne : c.state ≠ .search3 := by rw [hs]; exact nofun
  unfold stateQuit
  refine imapGetln_cases (P := Polled found c) ?_ (fun _ => trivial) fun line b => ?_
  · show Polling (found ++ _) c _
    rw [if_neg fun hboth => hne hboth.2, List.append_nil]
    exact ⟨h.flag, h.front, h.start, h.counted.wanted, h.counted.total, h.counted.pending⟩
  · split_ifs with hokay
    · exact ⟨hs, h.counted.total hne⟩
    · trivial

variable (conf pton) in
/-- Each call of a poll. -/
theorem polled_state (h : Polling found c e) : Polled found c (state conf pton c e) := by
  by_cases hinit : c.state = .init
  · rw [state, hinit]
    exact polled_init h hinit
  by_cases hsearch2 : c.state = .search2
  · rw [state, hsearch2]
    exact polled_search2 h hsearch2
  by_cases hsearch3 : c.state = .search3
  · rw [state, hsearch3]
    exact polled_search3 h hsearch3
  by_cases hquit : c.state = .quit
  · rw [state, hquit]
    exact polled_quit h hquit
  have hcounts : c.state.counts = true := by simp [State.counts, h.front, hinit, hsearch3]
  exact polled_of_still h hsearch3 (still_state conf pton hcounts hsearch2 hquit)

/-! ## Polls -/

/-- What holds of a poll. -/
structure PollInv (p : Poll) : Prop where
  queue : p.loop.queue = []
  run : p.loop.Running → Polling p.found p.loop.fctx p.loop.data
  done : p.loop.complete = true →
    p.loop.data.data.foldersTotal = messages p.found + recount p.found

theorem pollInv_pass {l : Loop Env State FetchImapMail} (hrun : l.Running)
    (h : PollInv ⟨l, found⟩) :
    PollInv ⟨l.pass (fetcher conf pton) conf,
      found ++ newlyFound l (l.pass (fetcher conf pton) conf)⟩ := by
  have ha := agree_prepare conf l
  have hpolling := h.run hrun
  unfold Loop.pass
  by_cases hcalls : l.calls conf = true
  · rw [if_pos hcalls]
    generalize hl : ((l.purge conf).hold conf).markEmpty = l₁
    have hstate : l₁.fctx.state = l.fctx.state := by rw [← hl]; exact ha.state
    have hqueue : l₁.queue = [] := by rw [← hl]; exact ha.queue.trans h.queue
    have hrunning : l₁.Running := by
      rw [← hl]
      exact ⟨ha.complete.trans hrun.1, ha.aborted.trans hrun.2⟩
    have hdata : l₁.data = l.data := by rw [← hl]; exact ha.data
    have hpolling₁ : Polling found l₁.fctx l₁.data := by
      have hpoll : l₁.fctx.flags.poll = true := by
        rw [← hl]
        exact ha.poll.trans hpolling.flag
      have hcounted := hpolling.counted
      have hstart := hpolling.start
      have hfront := hpolling.front
      rw [← hstate] at hcounted hstart hfront
      rw [hdata]
      exact ⟨hpoll, hfront, hstart, hcounted⟩
    have hcall := polled_state conf pton hpolling₁
    unfold Loop.call
    rw [show (fetcher conf pton).state l₁.fctx l₁.data = state conf pton l₁.fctx l₁.data from rfl]
    rcases hr : state conf pton l₁.fctx l₁.data with ⟨code, c', e'⟩
    rw [hr] at hcall
    have hnew : found ++ newlyFound l { l₁ with fctx := c', data := e' } = found ++
        if l₁.fctx.state = .search2 ∧ c'.state = .search3 then [e'.hist.selected] else [] := by
      rw [hstate]
      rfl
    have hgoes : Polling (found ++
        if l₁.fctx.state = .search2 ∧ c'.state = .search3 then [e'.hist.selected] else []) c' e' →
        PollInv ⟨{ l₁ with fctx := c', data := e' },
          found ++ newlyFound l { l₁ with fctx := c', data := e' }⟩ := by
      intro hnext
      rw [hnew]
      exact ⟨hqueue, fun _ => hnext, fun hdone => absurd (hrunning.1.symm.trans hdone) nofun⟩
    cases code with
    | again => exact hgoes hcall
    | block => exact hgoes hcall
    | mail => exact absurd hcall not_false
    | error =>
      exact ⟨hqueue, fun hrun => absurd hrun.2 nofun,
        fun hdone => absurd (hrunning.1.symm.trans hdone) nofun⟩
    | crash =>
      exact ⟨hqueue, fun hrun => absurd hrun.2 nofun,
        fun hdone => absurd (hrunning.1.symm.trans hdone) nofun⟩
    | exit =>
      obtain ⟨hquit, htotal⟩ := hcall
      refine ⟨hqueue, fun hrun => absurd hrun.1 nofun, fun _ => ?_⟩
      have hnone : newlyFound l { l₁ with fctx := c', data := e', complete := true } = [] := by
        apply if_neg
        rintro ⟨hsearch, -⟩
        rw [hstate, hsearch] at hquit
        exact absurd hquit nofun
      rw [hnone, List.append_nil]
      exact htotal
  · rw [if_neg hcalls]
    -- holding back, the loop calls nothing
    have hnone : newlyFound l ((l.purge conf).hold conf) = [] := by
      apply if_neg
      rintro ⟨hsearch, hsearch'⟩
      rw [ha.state, hsearch] at hsearch'
      exact absurd hsearch' nofun
    rw [hnone, List.append_nil]
    refine ⟨ha.queue.trans h.queue, fun _ => ?_,
      fun hdone => absurd ((ha.complete.trans hrun.1).symm.trans hdone) nofun⟩
    have hfctx : ((l.purge conf).hold conf).fctx.state = l.fctx.state := ha.state
    refine ⟨ha.poll.trans hpolling.flag, ?_, ?_, ?_⟩
    · rw [hfctx]
      exact hpolling.front
    · rw [hfctx]
      exact hpolling.start
    · rw [hfctx, ha.data]
      exact hpolling.counted

/-- One step of a poll. -/
theorem pollInv_step {p p' : Poll} {a : Act Input} (h : PollInv p)
    (hs : pollStep conf pton p a = some p') : PollInv p' := by
  obtain ⟨l', hstep, rfl⟩ := Option.map_eq_some_iff.mp hs
  have hnotover : p.loop.ended = false := by
    by_contra hne
    rw [Bool.not_eq_false] at hne
    cases a <;> simp [step, hne] at hstep
  have haborted : p.loop.aborted = false := by
    rw [Loop.ended, Bool.or_eq_false_iff] at hnotover
    exact hnotover.1
  -- the queue is empty, so that the loop is over when it is complete
  have hcomplete : p.loop.complete = false := by
    rw [Loop.ended, h.queue, haborted] at hnotover
    simpa using hnotover
  have hnone : ∀ l' : Loop Env State FetchImapMail, l'.fctx.state = p.loop.fctx.state →
      p.found ++ newlyFound p.loop l' = p.found := by
    intro l' hstate
    rw [newlyFound, if_neg, List.append_nil]
    rintro ⟨hsearch, hsearch'⟩
    rw [hstate, hsearch] at hsearch'
    cases hsearch'
  have hrun : p.loop.Running := ⟨hcomplete, haborted⟩
  have hpolling := h.run hrun
  cases a with
  | input i =>
    obtain rfl : { p.loop with data := (fetcher conf pton).input i p.loop.data } = l' := by
      simpa [step, hnotover] using hstep
    rw [hnone { p.loop with data := (fetcher conf pton).input i p.loop.data } rfl]
    refine ⟨h.queue, fun _ => ?_, fun hdone => absurd (hcomplete.symm.trans hdone) Bool.false_ne_true⟩
    have hcounted := hpolling.counted
    refine ⟨hpolling.flag, hpolling.front, hpolling.start, ?_⟩
    cases i <;> exact ⟨hcounted.wanted, hcounted.total, hcounted.pending⟩
  | pass =>
    obtain rfl : p.loop.pass (fetcher conf pton) conf = l' := by simpa [step, hnotover] using hstep
    exact pollInv_pass hrun h
  | dequeue n dec => simp [step, h.queue] at hstep
  | fail =>
    obtain rfl : p.loop.abort (fetcher conf pton) = l' := by simpa [step, hnotover] using hstep
    rw [hnone (p.loop.abort (fetcher conf pton)) rfl]
    exact ⟨h.queue, fun hrun => absurd hrun.2.symm Bool.false_ne_true,
      fun hdone => absurd (hcomplete.symm.trans hdone) Bool.false_ne_true⟩

end

section

variable {conf : Conf} {pton : List Char → Option (List Char)} {only : FetchOnly}
  {user pass : Option (List Char)} {nocrammd5 nologin : Bool} {folders : List (List Char)} {p : Poll}

/-- The total of a poll that has ended. -/
theorem foldersTotal_eq
    (h : Reach (pollStep conf pton) anyStep
      ⟨begin conf pton true only user pass nocrammd5 nologin folders, []⟩ p)
    (hdone : p.loop.complete = true) :
    p.loop.data.data.foldersTotal = messages p.found + recount p.found := by
  have hbegin : PollInv ⟨begin conf pton true only user pass nocrammd5 nologin folders, []⟩ :=
    ⟨rfl, fun _ => ⟨rfl, rfl, fun _ => rfl, rfl, fun _ => rfl, nofun⟩, nofun⟩
  have hinv : PollInv p := h.invariant hbegin fun _ _ _ hp _ hstep => pollInv_step hp hstep
  exact hinv.done hdone

/-- The total is right when nothing is searched behind the first folder with mails. -/
theorem foldersTotal_of_last
    (h : Reach (pollStep conf pton) anyStep
      ⟨begin conf pton true only user pass nocrammd5 nologin folders, []⟩ p)
    (hdone : p.loop.complete = true)
    (hlast : ∀ front uids behind, p.found = front ++ uids :: behind → behind ≠ [] → uids = []) :
    p.loop.data.data.foldersTotal = messages p.found := by
  rw [foldersTotal_eq h hdone, recount_eq_zero.mpr hlast, Nat.add_zero]

end

/-- What a poll that has ended reports is the number of the messages that its searches have
returned, just when those that are counted again make no difference. -/
theorem totals_iff (conf : Conf) (pton : List Char → Option (List Char)) (only : FetchOnly)
    (user pass : Option (List Char)) (nocrammd5 nologin : Bool) (folders : List (List Char))
    (p : Poll)
    (h : Reach (pollStep conf pton) anyStep
      ⟨begin conf pton true only user pass nocrammd5 nologin folders, []⟩ p)
    (hdone : p.loop.complete = true) :
    (imapTotal p.loop.data).toNat = messages p.found ↔
      recount p.found % 2 ^ 32 = 0 ∧ messages p.found < 2 ^ 32 := by
  rw [imapTotal, foldersTotal_eq h hdone, UInt32.toNat_ofNat']
  omega

/-! ## Two folders -/

/-- A poll of two folders. -/
def pollBegin : Poll := ⟨begin {} (fun _ => none) true .all none none false false [['a'], ['b']], []⟩

/-- Select a folder without mails; `t` is the tag of the command. -/
def selectEmpty (t : Char) : List (Act Input) :=
  [.pass, srv ['+'], .pass, srv ['*', ' ', '0', ' ', 'E', 'X', 'I', 'S', 'T', 'S'], .pass,
    srv [t, ' ', 'O', 'K'], .pass]

/-- The answer to a command. -/
def okTagged (t : Char) : List (Act Input) := [srv [t, ' ', 'O', 'K'], .pass]

/-- A folder without mails, and one with a mail. -/
def pollOne : List (Act Input) :=
  connectFirst ++ selectEmpty '1' ++ okTagged '2' ++ selectFolder '8' '3' '4' ++ okTagged '5' ++
    okTagged '6'

/-- Two folders with a mail each. -/
def pollTwo : List (Act Input) :=
  connectFirst ++ selectFolder '5' '1' '2' ++ okTagged '3' ++ selectFolder '8' '4' '5' ++
    okTagged '6' ++ okTagged '7'

theorem pollOne_runs : (exec (pollStep {} fun _ => none) pollBegin pollOne).isSome = true := by
  decide

theorem totals_iff_pollOne :
    ∃ p : Poll, p.found = [[8]] ∧ (imapTotal p.loop.data).toNat = messages p.found :=
  ⟨_, by decide +kernel, (totals_iff {} (fun _ => none) .all none none false false [['a'], ['b']] _
    (reach_get pollOne_runs) (by decide +kernel)).mpr (by decide +kernel)⟩

theorem pollTwo_runs : (exec (pollStep {} fun _ => none) pollBegin pollTwo).isSome = true := by
  decide

/-- Two mails are found, and three are reported. -/
theorem counted_twice :
    ∃ p : Poll, Reach (pollStep {} fun _ => none) anyStep pollBegin p ∧ p.loop.complete = true ∧
      messages p.found = 2 ∧ (imapTotal p.loop.data).toNat ≠ messages p.found :=
  ⟨_, reach_get pollTwo_runs, by decide +kernel, by decide +kernel, by decide +kernel⟩

end Fdm.Imap
