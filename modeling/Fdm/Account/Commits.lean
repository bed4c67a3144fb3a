import Fdm.Account.Fetching

/-!
# What is committed

The fetcher keeps a mail or gets rid of it when the mail is committed. Whatever the order in which
mails are worked on, each commit is what the rules have decided about that very mail, or comes of
`delete-oversized`.
-/

namespace Fdm.Account

open Rules Lib.Runs
open Fetch (Fetcher FetchFlags)

variable {κ δ υ σ γ ρ D ς α ι : Type}

/-! ## Commits -/

/-- A mail that the fetcher has handed out, when it is put on the queue. -/
def queuedMail (f : Mail α) : Mail α := { f.withBody.trimFrom with decision := .drop }

/-- The story with this number begins with a mail of the fetcher, and `m` is that mail. -/
def Handed (set : Settings κ δ σ α) (story : ℕ → Option (Story κ δ υ σ γ ρ)) (n : ℕ)
    (m : Mail α) : Prop :=
  ∃ st f, story n = some st ∧
    st.mail = enqueuedMail set.conf { data := f.data, rest := set.tags f } ∧
    { m with decision := .drop } = queuedMail f

/-- What a commit says about a mail that was queued. -/
def entry (x : Option ℕ × Mail α) : Option (ℕ × Decision) := x.1.map fun n => (n, x.2.decision)

/-- What the commits have to do with the mails that have left the queue. -/
structure Decided (set : Settings κ δ σ α) (c : Whole κ δ υ σ γ ρ D ς α) : Prop where
  /-- Mails are committed as they leave the queue, with the same decisions. -/
  order : c.side.log.filterMap entry = c.told.loop.left.map fun l => (l.idx, l.final)
  held : ∀ n m, (n, m) ∈ c.side.held → Handed set c.told.story n m
  handed : ∀ n m, (some n, m) ∈ c.side.log → Handed set c.told.story n m
  oversize : ∀ m, (none, m) ∈ c.side.log →
    set.fetch.maxSize < m.size ∧ set.fetch.delBig = true ∧ m.decision = .drop

/-- The mail with this number has been evaluated by the rules, up to their end, and its commit says
what they have decided about it. -/
def Ruled (env : Env κ δ υ σ γ ρ) (set : Settings κ δ σ α) (c : Whole κ δ υ σ γ ρ D ς α) (n : ℕ)
    (m : Mail α) : Prop :=
  ∃ x ∈ c.told.loop.left, ∃ st halt sit f, x.idx = n ∧
    Evaluated env set.conf c.told.story x st halt sit ∧
    st.mail = enqueuedMail set.conf { data := f.data, rest := set.tags f } ∧
    { m with decision := .drop } = queuedMail f ∧
    m.decision = finalDecision set.conf sit.mail.decision

/-! ## Steps of the fetcher -/

/-- What a step of the loop does with the mails of the fetcher: those that it holds, and the commits
that have been done. -/
inductive Moved (set : Settings κ δ σ α) (i : Input σ ρ) (s t : Loop κ δ υ σ γ ρ)
    (held : List (ℕ × Mail α)) (log : List (Option ℕ × Mail α)) :
    List (ℕ × Mail α) → List (Option ℕ × Mail α) → Prop
  | still (left : t.left = s.left) : Moved set i s t held log held log
  | left {held' : List (ℕ × Mail α)} (n : ℕ) (m : Mail α) (decision final : Decision)
      (mem : (n, m) ∈ held) (sub : held' ⊆ held) (left : t.left = s.left ++ [⟨n, decision, final⟩]) :
      Moved set i s t held log held' (log ++ [(some n, { m with decision := final })])
  | oversize (m : Mail α) (big : set.fetch.maxSize < m.size) (del : set.fetch.delBig = true)
      (left : t.left = s.left) :
      Moved set i s t held log held (log ++ [(none, { m with decision := .drop })])
  | queued (f : Mail α) (pc : s.pc = .fetching)
      (fetch : i.fetch = .mail { data := f.data, rest := set.tags f }) (left : t.left = s.left) :
      Moved set i s t held log (held ++ [(s.idx + 1, queuedMail f)]) log

section

variable {F : Fetcher D ς α ι} {set : Settings κ δ σ α} {env : Env κ δ υ σ γ ρ}
  {s t : Loop κ δ υ σ γ ρ} {side side' : Side D ς α}

/-- A mail leaves, and its commit works. -/
theorem moved_fetchDequeue {i : Input σ ρ} {u : Loop κ δ υ σ γ ρ} (hleft : u.left = s.left)
    {mctx : MailCtx κ δ υ σ} {fails : Bool}
    (hside : side.dequeue F mctx.idx (finalDecision set.conf mctx.mail.decision) =
      some (fails, side')) :
    Moved set i s (fetchDequeue set.conf fails mctx u) side.held side.log side'.held
      side'.log := by
  obtain ⟨⟨idx, m⟩, hfind, hmap⟩ := Option.bind_eq_some_iff.mp hside
  obtain ⟨⟨fails', side₁⟩, hcommit, hresult⟩ := Option.map_eq_some_iff.mp hmap
  obtain ⟨rfl, rfl⟩ := Prod.mk.inj hresult
  have hmem := List.mem_of_find?_eq_some hfind
  obtain rfl : idx = mctx.idx := by simpa using List.find?_some hfind
  rcases commit_cases hcommit with ⟨m', d, -, rfl, rfl⟩ | ⟨code, m', d, -, -, -, rfl, rfl⟩
  · exact .still hleft
  · refine .left mctx.idx m mctx.mail.decision _ hmem List.eraseP_subset ?_
    show u.left ++ _ = _
    rw [hleft]

/-- The state function returns `FETCH_MAIL`. -/
theorem moved_enqueue {i : Input σ ρ} {m : Mail α} {fails : Bool} (hpc : s.pc = .fetching)
    (hi : i.fetch = .mail { data := m.data, rest := set.tags m }) (hleft : t.left = s.left)
    (hside : side.enqueue F set s.idx m = some (fails, side')) :
    Moved set i s t side.held side.log side'.held side'.log := by
  unfold Side.enqueue at hside
  split_ifs at hside with hbig hdel hempty
  · obtain ⟨-, rfl⟩ := Prod.mk.inj (Option.some.inj hside)
    exact .still hleft
  · have hdel : set.fetch.delBig = true := by simpa using hdel
    rcases commit_cases hside with ⟨m', d, -, -, rfl⟩ | ⟨code, m', d, -, -, -, -, rfl⟩
    · exact .still hleft
    · exact .oversize m hbig hdel hleft
  · obtain ⟨-, rfl⟩ := Prod.mk.inj (Option.some.inj hside)
    exact .still hleft
  · obtain ⟨-, rfl⟩ := Prod.mk.inj (Option.some.inj hside)
    exact .queued m hpc hi hleft

/-- The fetcher is called. -/
theorem moved_call {i₀ i : Input σ ρ} (hpc : s.pc = .fetching) (hleft : t.left = s.left)
    (hside : side.call F set s i₀ = some (i, side')) :
    Moved set i s t side.held side.log side'.held side'.log := by
  unfold Side.call at hside
  rcases hstate : F.state side.fctx side.data with ⟨code, fctx, d⟩
  rw [hstate] at hside
  cases code with
  | crash => cases hside
  | error | exit | again | block =>
    obtain ⟨-, rfl⟩ := Prod.mk.inj (Option.some.inj hside)
    exact .still hleft
  | mail =>
    obtain ⟨⟨fails, side₁⟩, henqueue, hresult⟩ := Option.map_eq_some_iff.mp hside
    obtain ⟨rfl, rfl⟩ := Prod.mk.inj hresult
    have hmoved := fun i hi => moved_enqueue (i := i) (t := t) hpc hi hleft henqueue
    exact hmoved _ rfl

/-- What a step of the loop does with the fetcher. -/
theorem moved_next {i₀ i : Input σ ρ} (hside : side.step F set env s i₀ = some (i, side'))
    {reads : Bool} (hs : next env set.conf i s = some (reads, t)) :
    Moved set i s t side.held side.log side'.held side'.log := by
  unfold next at hs
  unfold Side.step at hside
  cases hpc : s.pc with
  | matching msgp =>
    rw [hpc] at hs
    obtain rfl := congrArg Prod.snd (Option.some_inj.mp hs)
    cases htodo : s.todo with
    | nil =>
      simp only [hpc, htodo] at hside
      obtain ⟨rfl, rfl⟩ := Prod.mk.inj (Option.some.inj hside)
      refine .still ?_
      simp only [fetchMatch, htodo]
    | cons this todo =>
      simp only [hpc, htodo] at hside
      unfold fetchMatch
      simp only [htodo]
      split_ifs at hside with hdone
      · obtain ⟨⟨fails, side₁⟩, hdequeue, hresult⟩ := Option.map_eq_some_iff.mp hside
        obtain ⟨rfl, rfl⟩ := Prod.mk.inj hresult
        change (mailMatch env set.conf.rules this s.world msgp).ret = .mailDone at hdone
        simp only [hdone]
        rw [← mailMatch_idx this s.world msgp] at hdequeue
        refine moved_fetchDequeue ?_ hdequeue
        rfl
      · obtain ⟨rfl, rfl⟩ := Prod.mk.inj (Option.some.inj hside)
        change (mailMatch env set.conf.rules this s.world msgp).ret ≠ .mailDone at hdone
        refine .still ?_
        generalize mailMatch env set.conf.rules this s.world msgp = ran at *
        cases hran : ran.ret with
        | mailDone => exact absurd hran hdone
        | _ => rfl
  | fetching =>
    rw [hpc] at hs
    simp only [hpc] at hside
    obtain rfl := congrArg Prod.snd (Option.some_inj.mp hs)
    have hleft := (fetched_callFetch set.conf i s).left
    unfold Side.fetching at hside
    split_ifs at hside
    · have hmoved := moved_call hpc hleft hside
      exact hmoved
    · obtain ⟨-, rfl⟩ := Prod.mk.inj (Option.some.inj hside)
      exact .still hleft
  | delivering msgp =>
    rw [hpc] at hs
    simp only [hpc] at hside
    obtain ⟨rfl, rfl⟩ := Prod.mk.inj (Option.some.inj hside)
    obtain rfl := congrArg Prod.snd (Option.some_inj.mp hs)
    refine .still ?_
    unfold fetchDeliver
    cases htodo : s.todo with
    | nil => rfl
    | cons this todo =>
      dsimp only
      generalize mailDeliver env this s.world msgp = ran
      cases ran.ret <;> rfl
  | top | polling =>
    rw [hpc] at hs
    simp only [hpc] at hside
    obtain ⟨rfl, rfl⟩ := Prod.mk.inj (Option.some.inj hside)
    obtain rfl := congrArg Prod.snd (Option.some_inj.mp hs)
    refine .still ?_
    first
      | unfold startPass; dsimp only; split <;> rfl
      | dsimp only; split <;> rfl
  | finished => rw [hpc] at hs; cases hs
  | aborted => rw [hpc] at hs; cases hs
  | fatal => rw [hpc] at hs; cases hs

/-! ## Stories and mails -/

/-- A step adds to the stories, and leaves what they begin with. -/
theorem tell_mail {conf : Conf κ δ σ} {i : Input σ ρ} {story : ℕ → Option (Story κ δ υ σ γ ρ)}
    {n : ℕ} (hn : n ≤ s.idx) {st : Story κ δ υ σ γ ρ} (hst : story n = some st) :
    ∃ st', tell env conf s i story n = some st' ∧ st'.mail = st.mail := by
  have hcall : ∀ (idx : ℕ) (call : Story κ δ υ σ γ ρ → Story κ δ υ σ γ ρ),
      (∀ st, (call st).mail = st.mail) →
      ∃ st', Function.update story idx ((story idx).map call) n = some st' ∧
        st'.mail = st.mail := by
    intro idx call hmail
    by_cases hidx : n = idx
    · subst hidx
      exact ⟨call st, by rw [Function.update_self, hst, Option.map_some], hmail st⟩
    · exact ⟨st, by rw [Function.update_of_ne hidx, hst], rfl⟩
  unfold tell
  cases hpc : s.pc with
  | matching msgp =>
    cases htodo : s.todo with
    | nil => exact ⟨st, hst, rfl⟩
    | cons this todo => exact hcall this.idx _ fun _ => rfl
  | delivering msgp =>
    cases htodo : s.todo with
    | nil => exact ⟨st, hst, rfl⟩
    | cons this todo => exact hcall this.idx _ fun _ => rfl
  | fetching =>
    cases hi : i.fetch with
    | mail m =>
      -- the number of a new story is a new one
      have hidx : n ≠ s.idx + 1 := by omega
      exact ⟨st, (Function.update_of_ne hidx _ _).trans hst, rfl⟩
    | _ => exact ⟨st, hst, rfl⟩
  | _ => exact ⟨st, hst, rfl⟩

theorem Handed.tell {i : Input σ ρ} {story : ℕ → Option (Story κ δ υ σ γ ρ)} {n : ℕ} {m : Mail α}
    (h : Handed set story n m) (hn : n ≤ s.idx) :
    Handed set (Account.tell env set.conf s i story) n m := by
  obtain ⟨st, f, hst, hmail, hqueued⟩ := h
  have htell : ∃ st', Account.tell env set.conf s i story n = some st' ∧ st'.mail = st.mail :=
    tell_mail hn hst
  obtain ⟨st', hst', hmail'⟩ := htell
  exact ⟨st', f, hst', hmail'.trans hmail, hqueued⟩

end

section

variable {F : Fetcher D ς α ι} {set : Settings κ δ σ α} {env : Env κ δ υ σ γ ρ}
  {c c' : Whole κ δ υ σ γ ρ D ς α} {l : Fetch.Loop D ς α}

/-- No mail is held under a number that was not given out. -/
theorem Sim.held_le (h : Sim set c.told.loop c.side l) {n : ℕ} {m : Mail α}
    (hm : (n, m) ∈ c.side.held) : n ≤ c.told.loop.idx := by
  have hmem := h.ids.mem_iff.mp (List.mem_map_of_mem hm)
  exact h.inv.idx_le (List.mem_append_right _ hmem)

/-- A mail that is committed has left the queue with that decision. -/
theorem Decided.mem_left (h : Decided set c) {n : ℕ} {m : Mail α}
    (hm : (some n, m) ∈ c.side.log) : ∃ x ∈ c.told.loop.left, x.idx = n ∧ x.final = m.decision := by
  have hentry : (n, m.decision) ∈ c.side.log.filterMap entry :=
    List.mem_filterMap.mpr ⟨_, hm, rfl⟩
  rw [h.order] at hentry
  obtain ⟨x, hx, heq⟩ := List.mem_map.mp hentry
  exact ⟨x, hx, congrArg Prod.fst heq, congrArg Prod.snd heq⟩

/-- Nor has one been committed. -/
theorem Decided.log_le (h : Decided set c) (hsim : Sim set c.told.loop c.side l) {n : ℕ}
    {m : Mail α} (hm : (some n, m) ∈ c.side.log) : n ≤ c.told.loop.idx := by
  obtain ⟨x, hx, rfl, -⟩ := h.mem_left hm
  exact hsim.inv.idx_le (List.mem_append_left _ (List.mem_map_of_mem hx))

/-- A step of the loop keeps what the commits have to do with the mails that have left. -/
theorem decided_moved (h : Decided set c) (hsim : Sim set c.told.loop c.side l) {i : Input σ ρ}
    {t : Loop κ δ υ σ γ ρ} {side' : Side D ς α}
    (hmoved : Moved set i c.told.loop t c.side.held c.side.log side'.held side'.log) :
    Decided set ⟨⟨t, tell env set.conf c.told.loop i c.told.story⟩, side'⟩ := by
  obtain ⟨fctx', data', held', log'⟩ := side'
  have hheld : ∀ n m, (n, m) ∈ c.side.held →
      Handed set (tell env set.conf c.told.loop i c.told.story) n m :=
    fun n m hm => (h.held n m hm).tell (hsim.held_le hm)
  have hlog : ∀ n m, (some n, m) ∈ c.side.log →
      Handed set (tell env set.conf c.told.loop i c.told.story) n m :=
    fun n m hm => (h.handed n m hm).tell (h.log_le hsim hm)
  cases hmoved with
  | still left => exact ⟨h.order.trans (by rw [left]), hheld, hlog, h.oversize⟩
  | left n m decision final mem sub left =>
    constructor
    · show List.filterMap entry (c.side.log ++ _) = _
      rw [List.filterMap_append, h.order, left, List.map_append]
      rfl
    · exact fun n m hm => hheld n m (sub hm)
    · intro n' m' hm
      rcases List.mem_append.mp hm with hm | hm
      · exact hlog n' m' hm
      · obtain ⟨rfl, rfl⟩ : n' = n ∧ m' = { m with decision := final } := by simpa using hm
        obtain ⟨st, f, hst, hmail, hqueued⟩ := hheld n' m mem
        exact ⟨st, f, hst, hmail, hqueued⟩
    · intro m' hm
      rcases List.mem_append.mp hm with hm | hm
      · exact h.oversize m' hm
      · simp at hm
  | oversize m big del left =>
    constructor
    · show List.filterMap entry (c.side.log ++ _) = _
      rw [List.filterMap_append, h.order, left]
      exact List.append_nil _
    · exact hheld
    · intro n' m' hm
      rcases List.mem_append.mp hm with hm | hm
      · exact hlog n' m' hm
      · simp at hm
    · intro m' hm
      rcases List.mem_append.mp hm with hm | hm
      · exact h.oversize m' hm
      · obtain rfl : m' = { m with decision := .drop } := by simpa using hm
        exact ⟨big, del, rfl⟩
  | queued f pc fetch left =>
    refine ⟨h.order.trans (by rw [left]), ?_, hlog, h.oversize⟩
    intro n m hm
    rcases List.mem_append.mp hm with hm | hm
    · exact hheld n m hm
    · obtain ⟨rfl, rfl⟩ : n = c.told.loop.idx + 1 ∧ m = queuedMail f := by simpa using hm
      refine ⟨{ mail := enqueuedMail set.conf { data := f.data, rest := set.tags f } }, f, ?_, rfl,
        rfl⟩
      show tell env set.conf c.told.loop i c.told.story _ = _
      unfold tell
      rw [pc, fetch]
      exact Function.update_self _ _ _

/-! ## Runs -/

/-- A step keeps what is known about the log: each commit was decided for that mail. -/
theorem decided_step (h : Decided set c) (hsim : Sim set c.told.loop c.side l) {a : ι ⊕ Input σ ρ}
    (hs : wholeStep F set env c a = some c') : Decided set c' := by
  cases a with
  | inl i =>
    unfold wholeStep at hs
    split_ifs at hs
    obtain rfl := Option.some.inj hs
    exact ⟨h.order, h.held, h.handed, h.oversize⟩
  | inr i₀ =>
    obtain ⟨⟨i, side₁⟩, hside, htold⟩ := Option.bind_eq_some_iff.mp hs
    obtain ⟨told, hstep, rfl⟩ := Option.map_eq_some_iff.mp htold
    obtain ⟨t, ht, rfl⟩ := Option.map_eq_some_iff.mp hstep
    obtain ⟨⟨reads, u⟩, hnext, hu⟩ := Option.bind_eq_some_iff.mp ht
    have hdecided : Decided set ⟨⟨u, tell env set.conf c.told.loop i c.told.story⟩, side₁⟩ :=
      decided_moved h hsim (moved_next hside hnext)
    dsimp only at hu
    split_ifs at hu
    obtain rfl := Option.some_inj.mp hu
    have hbuffer : Decided set ⟨⟨{ u with buffer := u.buffer ++ i.arrivals },
        tell env set.conf c.told.loop i c.told.story⟩, side₁⟩ :=
      ⟨hdecided.order, hdecided.held, hdecided.handed, hdecided.oversize⟩
    -- what is aborted has not been committed
    dsimp only
    split_ifs
    · exact ⟨hbuffer.order, hbuffer.held, hbuffer.handed, hbuffer.oversize⟩
    · exact hbuffer

theorem followed_whole (h : Followed env set.conf c.told) {a : ι ⊕ Input σ ρ}
    (hs : wholeStep F set env c a = some c') : Followed env set.conf c'.told := by
  cases a with
  | inl i =>
    unfold wholeStep at hs
    split_ifs at hs
    obtain rfl := Option.some.inj hs
    exact h
  | inr i₀ =>
    obtain ⟨⟨i, side₁⟩, -, htold⟩ := Option.bind_eq_some_iff.mp hs
    obtain ⟨told, hstep, rfl⟩ := Option.map_eq_some_iff.mp htold
    exact followed_step h hstep

end

/-- The mails of a run are those of the fetch, the stories are what the rules have done, and the
commits are what has been decided. -/
theorem decided_run (F : Fetcher D ς α ι) (set : Settings κ δ σ α) (env : Env κ δ υ σ γ ρ)
    (flags : FetchFlags) (d : D) (world : γ) {c : Whole κ δ υ σ γ ρ D ς α}
    (h : Reach (wholeStep F set env) (fun c _ => c.counts) (wholeStart F flags d world) c) :
    (∃ l, Sim set c.told.loop c.side l) ∧ Followed env set.conf c.told ∧ Decided set c := by
  refine h.invariant (I := fun c => (∃ l, Sim set c.told.loop c.side l) ∧
    Followed env set.conf c.told ∧ Decided set c) ⟨⟨_, sim_start F set flags d world⟩,
      followed_init env set.conf world, ⟨rfl, nofun, nofun, nofun⟩⟩ ?_
  intro c a c' ⟨⟨l, hsim⟩, hfollowed, hdecided⟩ hcounts hs
  obtain ⟨l', -, hsim'⟩ := sim_step hsim hcounts hs
  exact ⟨⟨l', hsim'⟩, followed_whole hfollowed hs, decided_step hdecided hsim hs⟩

/-- What has been committed for a mail of the rules is what they have decided. -/
theorem ruled_of_mem {set : Settings κ δ σ α} {env : Env κ δ υ σ γ ρ}
    {c : Whole κ δ υ σ γ ρ D ς α} {l : Fetch.Loop D ς α}
    (hsim : Sim set c.told.loop c.side l) (hfollowed : Followed env set.conf c.told)
    (hdecided : Decided set c) {n : ℕ} {m : Mail α} (hm : (some n, m) ∈ c.side.log) :
    Ruled env set c n m := by
  obtain ⟨x, hx, hidx, hfinal⟩ := hdecided.mem_left hm
  obtain ⟨st, halt, sit, heval⟩ := hfollowed.left x hx
  obtain ⟨st', f, hst', hmail, hqueued⟩ := hdecided.handed n m hm
  obtain rfl : st = st' := by
    have htold := heval.told
    rw [hidx, hst'] at htold
    exact (Option.some.inj htold).symm
  refine ⟨x, hx, st, halt, sit, f, hidx, heval, hmail, hqueued, ?_⟩
  rw [← hfinal, hsim.inv.final x hx, heval.decision]

/-- A mail has been committed with this decision and this `auxdata`. -/
def Logged (log : List (Option ℕ × Mail α)) (dec : Decision) (aux : α) : Prop :=
  ∃ y ∈ log, y.2.decision = dec ∧ y.2.auxdata = some aux

/-- What is logged stays so. -/
theorem Logged.mono {log log' : List (Option ℕ × Mail α)} {dec : Decision} {aux : α}
    (h : Logged log dec aux) (hsub : log ⊆ log') : Logged log' dec aux := by
  obtain ⟨y, hy, hdecision, haux⟩ := h
  exact ⟨y, hsub hy, hdecision, haux⟩

/-- The last commit is logged. -/
theorem Logged.last (log : List (Option ℕ × Mail α)) (n : Option ℕ) {m : Mail α} {dec : Decision}
    {aux : α} (hdecision : m.decision = dec) (haux : m.auxdata = some aux) :
    Logged (log ++ [(n, m)]) dec aux :=
  ⟨(n, m), List.mem_append_right _ (List.mem_singleton_self _), hdecision, haux⟩

/-- What has been committed has been ruled, or the mail was too big. -/
theorem Logged.ruled (F : Fetcher D ς α ι) (set : Settings κ δ σ α) (env : Env κ δ υ σ γ ρ)
    (flags : FetchFlags) (d : D) (world : γ) {c : Whole κ δ υ σ γ ρ D ς α}
    (h : Reach (wholeStep F set env) (fun c _ => c.counts) (wholeStart F flags d world) c)
    {dec : Decision} {aux : α} (hlogged : Logged c.side.log dec aux) :
    ∃ m : Mail α, m.decision = dec ∧ m.auxdata = some aux ∧
      ((∃ k, Ruled env set c k m) ∨
        dec = .drop ∧ set.fetch.maxSize < m.size ∧ set.fetch.delBig = true) := by
  obtain ⟨⟨l, hsim⟩, hfollowed, hdecided⟩ := decided_run F set env flags d world h
  obtain ⟨⟨n, m⟩, hm, hdecision, haux⟩ := hlogged
  refine ⟨m, hdecision, haux, ?_⟩
  cases n with
  | some n => exact .inl ⟨n, ruled_of_mem hsim hfollowed hdecided hm⟩
  | none =>
    obtain ⟨hbig, hdel, hdrop⟩ := hdecided.oversize m hm
    exact .inr ⟨hdecision.symm.trans hdrop, hbig, hdel⟩

/-- In every run the mails that have left the queue have been committed in turn, each of them once.
Each commit of such a mail says what the rules have decided about the mail that the fetcher has
handed out; the other commits are of mails that are too big, where `delete-oversized` is set. -/
theorem commits_decided (F : Fetcher D ς α ι) (set : Settings κ δ σ α) (env : Env κ δ υ σ γ ρ)
    (flags : FetchFlags) (d : D) (world : γ) {c : Whole κ δ υ σ γ ρ D ς α}
    (h : Reach (wholeStep F set env) (fun c _ => c.counts) (wholeStart F flags d world) c) :
    (c.side.log.filterMap Prod.fst).Nodup ∧
      c.side.log.filterMap entry = c.told.loop.left.map (fun l => (l.idx, l.final)) ∧
      (∀ n m, (some n, m) ∈ c.side.log → Ruled env set c n m) ∧
      ∀ m, (none, m) ∈ c.side.log →
        set.fetch.maxSize < m.size ∧ set.fetch.delBig = true ∧ m.decision = .drop := by
  obtain ⟨⟨l, hsim⟩, hfollowed, hdecided⟩ := decided_run F set env flags d world h
  refine ⟨?_, hdecided.order, ?_, hdecided.oversize⟩
  · have hidx : c.side.log.filterMap Prod.fst = c.told.loop.left.map Left.idx := by
      have hfst := congrArg (List.map Prod.fst) hdecided.order
      rw [List.map_filterMap, List.map_map] at hfst
      refine Eq.trans ?_ hfst
      congr 1
      funext x
      rw [entry, Option.map_map]
      exact Option.map_id'.symm
    have hnodup := hsim.inv.perm.nodup_iff.mpr hsim.inv.nodup
    rw [hidx]
    exact (List.nodup_append.mp hnodup).1
  · exact fun n m hm => ruled_of_mem hsim hfollowed hdecided hm

theorem commits_decided_handOut :
    (handedOut 13).map (fun c => c.side.log.map fun x => (x.1, x.2.decision)) =
      some [(some 1, .drop), (some 2, .drop)] ∧
    ∀ c, handedOut 13 = some c →
      (c.side.log.filterMap Prod.fst).Nodup ∧
        c.side.log.filterMap entry = c.told.loop.left.map (fun l => (l.idx, l.final)) ∧
        (∀ n m, (some n, m) ∈ c.side.log → Ruled idleEnv dropAll c n m) ∧
        ∀ m, (none, m) ∈ c.side.log →
          dropAll.fetch.maxSize < m.size ∧ dropAll.fetch.delBig = true ∧ m.decision = .drop :=
  ⟨by decide, fun _ hc => commits_decided handOut dropAll idleEnv {} (2, 0) ()
    (reach_of_execGuarded (fun _ _ => of_decide_eq_true) hc)⟩

/-! ## The data of the fetcher -/

/-- What the functions of a fetcher keep of its data, next to the commits that have been done. -/
structure KeptBy (F : Fetcher D ς α ι) (J : D → List (Option ℕ × Mail α) → Prop) : Prop where
  state : ∀ fctx d log, J d log → J (F.state fctx d).2.2 log
  commit : ∀ n m d log, J d log →
    Fetch.Committed F (fun d => J d (log ++ [(n, m)])) (fun d => J d log) (F.commit m d)
  abort : ∀ d log, J d log → J (F.abort d) log
  auxfree : ∀ m d log, J d log → J (F.auxfree m d) log
  input : ∀ i d log, J d log → J (F.input i d) log

section

variable {F : Fetcher D ς α ι} {set : Settings κ δ σ α} {env : Env κ δ υ σ γ ρ}
  {s : Loop κ δ υ σ γ ρ} {side side' : Side D ς α} {J : D → List (Option ℕ × Mail α) → Prop}

/-- A commit keeps what the fetcher keeps. -/
theorem kept_commit (hF : KeptBy F J) (h : J side.data side.log) {n : Option ℕ} {m : Mail α}
    {fails : Bool} (hside : side.commit F n m = some (fails, side')) :
    J side'.data side'.log := by
  have hcommit := hF.commit n m side.data side.log h
  rcases commit_cases hside with ⟨m', d, hreturn, -, rfl⟩ |
    ⟨code, m', d, hreturn, herror, hcrash, -, rfl⟩
  · rw [hreturn] at hcommit
    exact hcommit
  · rw [hreturn] at hcommit
    cases code with
    | error => exact absurd rfl herror
    | crash => exact absurd rfl hcrash
    | again | block | mail | exit => exact hcommit

/-- So does a call. -/
theorem kept_call (hF : KeptBy F J) (h : J side.data side.log) {i₀ i : Input σ ρ}
    (hside : side.call F set s i₀ = some (i, side')) : J side'.data side'.log := by
  have hstate := hF.state side.fctx side.data side.log h
  unfold Side.call at hside
  rcases hreturn : F.state side.fctx side.data with ⟨code, fctx, d⟩
  rw [hreturn] at hside hstate
  cases code with
  | crash => cases hside
  | error | exit | again | block =>
    obtain ⟨-, rfl⟩ := Prod.mk.inj (Option.some.inj hside)
    exact hstate
  | mail =>
    obtain ⟨⟨fails, side₁⟩, henqueue, hresult⟩ := Option.map_eq_some_iff.mp hside
    obtain ⟨-, rfl⟩ := Prod.mk.inj hresult
    unfold Side.enqueue at henqueue
    split_ifs at henqueue
    · obtain ⟨-, rfl⟩ := Prod.mk.inj (Option.some.inj henqueue)
      exact hstate
    · refine kept_commit hF ?_ henqueue
      exact hstate
    · obtain ⟨-, rfl⟩ := Prod.mk.inj (Option.some.inj henqueue)
      exact hstate
    · obtain ⟨-, rfl⟩ := Prod.mk.inj (Option.some.inj henqueue)
      exact hstate

/-- And each step of the loop. -/
theorem kept_step (hF : KeptBy F J) (h : J side.data side.log) {i₀ i : Input σ ρ}
    (hside : side.step F set env s i₀ = some (i, side')) : J side'.data side'.log := by
  unfold Side.step at hside
  dsimp only at hside
  split at hside
  · split_ifs at hside
    · obtain ⟨⟨fails, side₁⟩, hdequeue, hresult⟩ := Option.map_eq_some_iff.mp hside
      obtain ⟨-, rfl⟩ := Prod.mk.inj hresult
      obtain ⟨⟨idx, m⟩, -, hmap⟩ := Option.bind_eq_some_iff.mp hdequeue
      obtain ⟨⟨fails', side₂⟩, hcommit, hresult⟩ := Option.map_eq_some_iff.mp hmap
      obtain ⟨-, rfl⟩ := Prod.mk.inj hresult
      have hkept := kept_commit hF h hcommit
      split_ifs
      · exact hkept
      · exact hkept
    · obtain ⟨-, rfl⟩ := Prod.mk.inj (Option.some.inj hside)
      exact h
  · unfold Side.fetching at hside
    split_ifs at hside
    · refine kept_call hF ?_ hside
      exact h
    · obtain ⟨-, rfl⟩ := Prod.mk.inj (Option.some.inj hside)
      exact h
  · obtain ⟨-, rfl⟩ := Prod.mk.inj (Option.some.inj hside)
    exact h

/-- And the end of a session that is broken off. -/
theorem kept_abort (hF : KeptBy F J) (h : J side.data side.log) :
    J (side.abort F).data (side.abort F).log := by
  have hfold : ∀ (ms : List (Mail α)) (d : D), J d side.log →
      J (ms.foldl (fun d m => F.auxfree m d) d) side.log := by
    intro ms
    induction ms with
    | nil => exact fun d hd => hd
    | cons m ms ih => exact fun d hd => ih _ (hF.auxfree m d _ hd)
  exact hfold _ _ (hF.abort _ _ h)

/-- What the functions of the fetcher keep holds in every state of a run. -/
theorem kept_run (hF : KeptBy F J) {flags : FetchFlags} {d : D} {world : γ} (hinit : J d [])
    {c : Whole κ δ υ σ γ ρ D ς α} {G : Whole κ δ υ σ γ ρ D ς α → ι ⊕ Input σ ρ → Prop}
    (h : Reach (wholeStep F set env) G (wholeStart F flags d world) c) :
    J c.side.data c.side.log := by
  refine h.invariant (I := fun c => J c.side.data c.side.log) hinit ?_
  intro c a c' hJ _ hs
  cases a with
  | inl i =>
    unfold wholeStep at hs
    split_ifs at hs
    obtain rfl := Option.some.inj hs
    exact hF.input _ _ _ hJ
  | inr i₀ =>
    obtain ⟨⟨i, side₁⟩, hside, htold⟩ := Option.bind_eq_some_iff.mp hs
    obtain ⟨told, hstep, rfl⟩ := Option.map_eq_some_iff.mp htold
    have hkept := kept_step hF hJ hside
    dsimp only
    split_ifs
    · exact kept_abort hF hkept
    · exact hkept

end

end Fdm.Account
