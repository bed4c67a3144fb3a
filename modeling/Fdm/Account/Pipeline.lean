import Fdm.Account.Wakeup
import Fdm.Lib.Simulation
import Fdm.Rules.Worlds

/-!
# The loop follows the rules

The loop works on many mails in turn, and each of them can wait for the parent many times. Whatever
comes of that, each mail has been treated as the rules say for that mail alone.
-/

namespace Fdm.Account

open Rules Lib.Runs

variable {κ δ υ σ γ ρ : Type}

/-! ## Stories -/

/-- The loop, and the story of each mail. -/
structure Told (κ δ υ σ γ ρ : Type) where
  loop : Loop κ δ υ σ γ ρ
  story : ℕ → Option (Story κ δ υ σ γ ρ) := fun _ => none

section

variable (env : Env κ δ υ σ γ ρ) (conf : Conf κ δ σ)

/-- The mail that `fetch_enqueue` puts on the queue. -/
def enqueuedMail (m : MailData σ) : MailData σ :=
  conf.fillIn { conf.trimFrom m with decision := .drop }

/-- A step goes on with the story of a mail: the one that is called, or a new one. -/
def tell (s : Loop κ δ υ σ γ ρ) (i : Input σ ρ) (story : ℕ → Option (Story κ δ υ σ γ ρ)) :
    ℕ → Option (Story κ δ υ σ γ ρ) :=
  match s.pc, s.todo with
  | .matching msgp, this :: _ =>
    Function.update story this.idx ((story this.idx).map fun st =>
      st.call this s.world msgp (mailMatch env conf.rules this s.world msgp))
  | .delivering msgp, this :: _ =>
    Function.update story this.idx ((story this.idx).map fun st =>
      st.call this s.world msgp (mailDeliver env this s.world msgp))
  | .fetching, _ =>
    match i.fetch with
    | .mail m => Function.update story (s.idx + 1) (some { mail := enqueuedMail conf m })
    | _ => story
  | _, _ => story

/-- A step of the loop. -/
def toldStep (w : Told κ δ υ σ γ ρ) (i : Input σ ρ) : Option (Told κ δ υ σ γ ρ) :=
  (step env conf w.loop i).map fun t => ⟨t, tell env conf w.loop i w.story⟩

end

/-! ## The invariant -/

/-- The mails that `mail_match` is called for next. -/
def Loop.onMatch (s : Loop κ δ υ σ γ ρ) : List (MailCtx κ δ υ σ) :=
  match s.pc with
  | .matching _ => s.matchq ++ s.todo
  | _ => s.matchq

/-- The mails that `mail_deliver` is called for next. -/
def Loop.onDeliver (s : Loop κ δ υ σ γ ρ) : List (MailCtx κ δ υ σ) :=
  match s.pc with
  | .delivering _ => s.todo ++ s.deliverq
  | _ => s.deliverq

section

variable (env : Env κ δ υ σ γ ρ) (conf : Conf κ δ σ)

/-- The story of a mail says that it is in some place. -/
def Known (story : ℕ → Option (Story κ δ υ σ γ ρ)) (mctx : MailCtx κ δ υ σ) (place : Place) :
    Prop :=
  ∃ st, story mctx.idx = some st ∧ st.Tells env conf.rules mctx place

/-- A mail has left the queue at the end of its evaluation. -/
structure Evaluated (story : ℕ → Option (Story κ δ υ σ γ ρ)) (l : Left) (st : Story κ δ υ σ γ ρ)
    (halt : Halt) (sit : Sit κ δ υ σ (List γ) ρ) : Prop where
  told : story l.idx = some st
  ends : evalRuleset env.seeing conf.rules st.mail st.found st.replies = (halt, sit)
  halted : halt = .stopped ∨ halt = .unmatched
  decision : l.decision = sit.mail.decision
  events : st.events = sit.events

/-- What the stories say in every state of the loop. -/
structure Followed (w : Told κ δ υ σ γ ρ) : Prop where
  inv : Inv conf w.loop
  matchq : w.loop.pc.isAlive = true → ∀ m ∈ w.loop.onMatch, Known env conf w.story m .matchq
  deliverq : w.loop.pc.isAlive = true →
    ∀ m ∈ w.loop.onDeliver, Known env conf w.story m .deliverq
  mails : ∀ m ∈ w.loop.mails, ∃ place, Known env conf w.story m place
  left : ∀ l ∈ w.loop.left, ∃ st halt sit, Evaluated env conf w.story l st halt sit

end

section

variable {env : Env κ δ υ σ γ ρ} {conf : Conf κ δ σ} {s t : Loop κ δ υ σ γ ρ}
  {w : Told κ δ υ σ γ ρ}

/-- Which mails are on the queue of the matches, whether or not the pass is at it. -/
theorem mem_onMatch {m : MailCtx κ δ υ σ} :
    m ∈ s.onMatch ↔ m ∈ s.matchq ∨ (∃ msgp, s.pc = .matching msgp) ∧ m ∈ s.todo := by
  unfold Loop.onMatch
  cases s.pc <;> simp

/-- Which mails are on the queue of the deliveries. -/
theorem mem_onDeliver {m : MailCtx κ δ υ σ} :
    m ∈ s.onDeliver ↔ m ∈ s.deliverq ∨ (∃ msgp, s.pc = .delivering msgp) ∧ m ∈ s.todo := by
  unfold Loop.onDeliver
  cases s.pc <;> simp [or_comm]

/-- A mail that has left is not queued any more. -/
theorem Inv.left_ne (h : Inv conf s) {l : Left} (hl : l ∈ s.left) {m : MailCtx κ δ υ σ}
    (hm : m ∈ s.mails) : l.idx ≠ m.idx :=
  (List.nodup_append.mp (h.perm.nodup_iff.mpr h.nodup)).2.2 l.idx (List.mem_map_of_mem hl) m.idx
    (List.mem_map_of_mem hm)

/-- No mail has a number that was not given out. -/
theorem Inv.idx_le (h : Inv conf s) {n : ℕ}
    (hn : n ∈ s.left.map Left.idx ++ s.mails.map MailCtx.idx) : n ≤ s.idx :=
  h.enqueued n (h.perm.mem_iff.mp hn)

/-- What is known of a mail does not depend on the stories of the others. -/
theorem Known.update {story : ℕ → Option (Story κ δ υ σ γ ρ)} {m : MailCtx κ δ υ σ}
    {place : Place} (h : Known env conf story m place) {n : ℕ} (hne : m.idx ≠ n)
    (st : Option (Story κ δ υ σ γ ρ)) : Known env conf (Function.update story n st) m place := by
  obtain ⟨st', hst', htells⟩ := h
  exact ⟨st', by rw [Function.update_of_ne hne, hst'], htells⟩

/-- The mails move, and no story goes on. -/
theorem Followed.keep (h : Followed env conf w) (halive : w.loop.pc.isAlive = true)
    (hinv : Inv conf t) (hmatchq : ∀ m ∈ t.onMatch, m ∈ w.loop.onMatch)
    (hdeliverq : ∀ m ∈ t.onDeliver, m ∈ w.loop.onDeliver)
    (hmails : ∀ m ∈ t.mails, m ∈ w.loop.mails) (hleft : t.left = w.loop.left) :
    Followed env conf ⟨t, w.story⟩ where
  inv := hinv
  matchq _ m hm := h.matchq halive m (hmatchq m hm)
  deliverq _ m hm := h.deliverq halive m (hdeliverq m hm)
  mails m hm := h.mails m (hmails m hm)
  left l hl := h.left l (hleft ▸ hl)

/-- One story goes on, that of a mail `mctx` which is now in `place`. -/
theorem Followed.tell (h : Followed env conf w) (halive : w.loop.pc.isAlive = true) {n : ℕ}
    {mctx : MailCtx κ δ υ σ} {place : Place} {st : Story κ δ υ σ γ ρ} (hidx : mctx.idx = n)
    (htells : st.Tells env conf.rules mctx place) (hnew : ∀ l ∈ w.loop.left, l.idx ≠ n)
    (hinv : Inv conf t)
    (hmatchq : t.pc.isAlive = true → ∀ m ∈ t.onMatch,
      m ∈ w.loop.onMatch ∧ m.idx ≠ n ∨ m = mctx ∧ place = .matchq)
    (hdeliverq : t.pc.isAlive = true → ∀ m ∈ t.onDeliver,
      m ∈ w.loop.onDeliver ∧ m.idx ≠ n ∨ m = mctx ∧ place = .deliverq)
    (hmails : ∀ m ∈ t.mails, m ∈ w.loop.mails ∧ m.idx ≠ n ∨ m = mctx)
    (hleft : ∀ l ∈ t.left, l ∈ w.loop.left ∨ ∃ halt, place = .finished halt ∧
      (halt = .stopped ∨ halt = .unmatched) ∧ l.idx = n ∧ l.decision = mctx.mail.decision) :
    Followed env conf ⟨t, Function.update w.story n (some st)⟩ := by
  have hthis : Known env conf (Function.update w.story n (some st)) mctx place :=
    ⟨st, by rw [hidx, Function.update_self], htells⟩
  refine ⟨hinv, fun hpc m hm => ?_, fun hpc m hm => ?_, fun m hm => ?_, fun l hl => ?_⟩
  · rcases hmatchq hpc m hm with ⟨hold, hne⟩ | ⟨rfl, rfl⟩
    · exact (h.matchq halive m hold).update hne _
    · exact hthis
  · rcases hdeliverq hpc m hm with ⟨hold, hne⟩ | ⟨rfl, rfl⟩
    · exact (h.deliverq halive m hold).update hne _
    · exact hthis
  · rcases hmails m hm with ⟨hold, hne⟩ | rfl
    · obtain ⟨place', hknown⟩ := h.mails m hold
      exact ⟨place', hknown.update hne _⟩
    · exact ⟨place, hthis⟩
  · rcases hleft l hl with hold | ⟨halt, rfl, hhalted, hlidx, hdecision⟩
    · obtain ⟨st', halt, sit, htold, hends, hhalted, hdecision, hevents⟩ := h.left l hold
      exact ⟨st', halt, sit, (Function.update_of_ne (hnew l hold) _ _).trans htold, hends,
        hhalted, hdecision, hevents⟩
    · subst hlidx
      exact ⟨st, halt, mctx.sit [] [] st.events, Function.update_self _ _ _, htells.finished,
        hhalted, hdecision, rfl⟩

/-! ## Calls -/

/-- The mails apart from the one that is called. -/
theorem Inv.others (h : Inv conf s) {this : MailCtx κ δ υ σ} {todo : List (MailCtx κ δ υ σ)}
    (htodo : s.todo = this :: todo) {m : MailCtx κ δ υ σ}
    (hm : m ∈ s.matchq ∨ m ∈ todo ∨ m ∈ s.deliverq) : m ∈ s.mails ∧ m.idx ≠ this.idx := by
  have hperm : s.mails.Perm (this :: (s.matchq ++ (todo ++ s.deliverq))) := by
    simp only [Loop.mails, htodo, List.append_assoc, List.cons_append]
    exact List.perm_middle
  have hmem : m ∈ s.matchq ++ (todo ++ s.deliverq) := by simpa using hm
  have hnodup := (hperm.map MailCtx.idx).nodup_iff.mp h.nodup_mails
  rw [List.map_cons, List.nodup_cons] at hnodup
  refine ⟨hperm.mem_iff.mpr (List.mem_cons_of_mem _ hmem), fun heq => hnodup.1 ?_⟩
  rw [← heq]
  exact List.mem_map_of_mem hmem

/-- The mail that a pass is at is one of the mails. -/
theorem Inv.this_mem {this : MailCtx κ δ υ σ} {todo : List (MailCtx κ δ υ σ)}
    (htodo : s.todo = this :: todo) : this ∈ s.mails := by
  simp [Loop.mails, htodo]

/-- A mail has been called: it goes to the end of one of the queues, or it has left them. -/
theorem Followed.called (h : Followed env conf w) (halive : w.loop.pc.isAlive = true)
    {this : MailCtx κ δ υ σ} {todo : List (MailCtx κ δ υ σ)}
    (htodo : w.loop.todo = this :: todo) {mctx : MailCtx κ δ υ σ} (hidx : mctx.idx = this.idx)
    {place : Place} {st : Story κ δ υ σ γ ρ} (htells : st.Tells env conf.rules mctx place)
    (hinv : Inv conf t) (hpc : t.pc.isAlive = true → t.pc = w.loop.pc)
    (htodo' : t.todo = todo) {ms ds : List (MailCtx κ δ υ σ)}
    (hmatchq : t.matchq = w.loop.matchq ++ ms) (hdeliverq : t.deliverq = w.loop.deliverq ++ ds)
    (hms : ∀ m ∈ ms, m = mctx ∧ (t.pc.isAlive = true → place = .matchq))
    (hds : ∀ m ∈ ds, m = mctx ∧ (t.pc.isAlive = true → place = .deliverq))
    (hleft : ∀ l ∈ t.left, l ∈ w.loop.left ∨ ∃ halt, place = .finished halt ∧
      (halt = .stopped ∨ halt = .unmatched) ∧ l.idx = this.idx ∧
      l.decision = mctx.mail.decision) :
    Followed env conf ⟨t, Function.update w.story this.idx (some st)⟩ := by
  have hothers (m : MailCtx κ δ υ σ) := h.inv.others htodo (m := m)
  refine h.tell halive hidx htells (fun l hl => h.inv.left_ne hl (Inv.this_mem htodo)) hinv
    (fun halive' m hm => ?_) (fun halive' m hm => ?_) (fun m hm => ?_) hleft
  · rw [mem_onMatch, hmatchq, htodo', List.mem_append, hpc halive'] at hm
    rw [mem_onMatch, htodo, List.mem_cons]
    rcases hm with (hm | hm) | ⟨hqueue, hm⟩
    · exact .inl ⟨.inl hm, (hothers m (.inl hm)).2⟩
    · exact .inr ⟨(hms m hm).1, (hms m hm).2 halive'⟩
    · exact .inl ⟨.inr ⟨hqueue, .inr hm⟩, (hothers m (.inr (.inl hm))).2⟩
  · rw [mem_onDeliver, hdeliverq, htodo', List.mem_append, hpc halive'] at hm
    rw [mem_onDeliver, htodo, List.mem_cons]
    rcases hm with (hm | hm) | ⟨hqueue, hm⟩
    · exact .inl ⟨.inl hm, (hothers m (.inr (.inr hm))).2⟩
    · exact .inr ⟨(hds m hm).1, (hds m hm).2 halive'⟩
    · exact .inl ⟨.inr ⟨hqueue, .inr hm⟩, (hothers m (.inr (.inl hm))).2⟩
  · simp only [Loop.mails, hmatchq, hdeliverq, htodo', List.mem_append] at hm
    rcases hm with ((hm | hm) | hm) | hm | hm
    · exact .inl (hothers m (.inl hm))
    · exact .inr (hms m hm).1
    · exact .inl (hothers m (.inr (.inl hm)))
    · exact .inl (hothers m (.inr (.inr hm)))
    · exact .inr (hds m hm).1

/-- A call of `mail_match`. -/
theorem followed_fetchMatch (h : Followed env conf w) {msgp : Option (Msg ρ)}
    (hpc : w.loop.pc = .matching msgp) {this : MailCtx κ δ υ σ} {todo : List (MailCtx κ δ υ σ)}
    (htodo : w.loop.todo = this :: todo) (fails : Bool)
    (hinv : Inv conf (fetchMatch env conf fails msgp w.loop).2) {st : Story κ δ υ σ γ ρ}
    (htells : st.Tells env conf.rules this .matchq) :
    Followed env conf ⟨(fetchMatch env conf fails msgp w.loop).2,
      Function.update w.story this.idx
        (some (st.call this w.loop.world msgp
          (mailMatch env conf.rules this w.loop.world msgp)))⟩ := by
  have hidx : (mailMatch env conf.rules this w.loop.world msgp).mctx.idx = this.idx :=
    mailMatch_idx this w.loop.world msgp
  have hcall := tells_mailMatch htells w.loop.world msgp
  have halive : w.loop.pc.isAlive = true := by rw [hpc]; rfl
  have hnone : ∀ {P : MailCtx κ δ υ σ → Prop}, ∀ m ∈ ([] : List (MailCtx κ δ υ σ)), P m := nofun
  unfold fetchMatch at hinv ⊢
  simp only [htodo] at hinv ⊢
  generalize mailMatch env conf.rules this w.loop.world msgp = ran at *
  have hmctx {place : Place} {pc : At ρ} (hplace : pc.isAlive = true →
      placeAfter .matchq ran.ret ran.mctx.done = place) :
      ∀ m ∈ [ran.mctx], m = ran.mctx ∧ (pc.isAlive = true →
        placeAfter .matchq ran.ret ran.mctx.done = place) :=
    fun m hm => ⟨List.mem_singleton.mp hm, hplace⟩
  cases hret : ran.ret with
  | mailError =>
    simp only [hret] at hinv ⊢
    exact h.called halive htodo hidx hcall hinv nofun rfl rfl (List.append_nil _).symm
      (hmctx nofun) hnone fun l hl => .inl hl
  | mailBlocked =>
    simp only [hret] at hinv ⊢
    exact h.called halive htodo hidx hcall hinv (fun _ => rfl) rfl rfl (List.append_nil _).symm
      (hmctx fun _ => by rw [hret]; rfl) hnone fun l hl => .inl hl
  | fatal =>
    simp only [hret] at hinv ⊢
    exact h.called halive htodo hidx hcall hinv nofun rfl rfl (List.append_nil _).symm
      (hmctx nofun) hnone fun l hl => .inl hl
  | mailContinue =>
    simp only [hret] at hinv ⊢
    exact h.called halive htodo hidx hcall hinv (fun _ => rfl) rfl rfl (List.append_nil _).symm
      (hmctx fun _ => by rw [hret]; rfl) hnone fun l hl => .inl hl
  | mailMatch =>
    simp only [hret] at hinv ⊢
    exact h.called halive htodo hidx hcall hinv (fun _ => rfl) rfl rfl (List.append_nil _).symm
      (hmctx fun _ => by rw [hret]; rfl) hnone fun l hl => .inl hl
  | mailDeliver =>
    simp only [hret] at hinv ⊢
    exact h.called halive htodo hidx hcall hinv (fun _ => rfl) rfl (List.append_nil _).symm rfl
      hnone (hmctx fun _ => by rw [hret]; rfl) fun l hl => .inl hl
  | mailDone =>
    simp only [hret] at hinv ⊢
    unfold fetchDequeue at hinv ⊢
    dsimp only at hinv ⊢
    by_cases hfail : (conf.commit && fails) = true
    · rw [if_pos hfail] at hinv ⊢
      exact h.called halive htodo hidx hcall hinv nofun rfl rfl (List.append_nil _).symm
        (hmctx nofun) hnone fun l hl => .inl hl
    · rw [if_neg hfail] at hinv ⊢
      refine h.called halive htodo hidx hcall hinv (fun _ => rfl) rfl (List.append_nil _).symm
        (List.append_nil _).symm hnone hnone fun l hl => ?_
      rcases List.mem_append.mp hl with hl | hl
      · exact .inl hl
      · rw [List.mem_singleton.mp hl, hret]
        refine .inr ⟨_, rfl, ?_, hidx, rfl⟩
        split
        · exact .inl rfl
        · exact .inr rfl

/-- A call of `mail_deliver`. -/
theorem followed_fetchDeliver (h : Followed env conf w) {msgp : Option (Msg ρ)}
    (hpc : w.loop.pc = .delivering msgp) {this : MailCtx κ δ υ σ} {todo : List (MailCtx κ δ υ σ)}
    (htodo : w.loop.todo = this :: todo) (hinv : Inv conf (fetchDeliver env msgp w.loop).2)
    {st : Story κ δ υ σ γ ρ} (htells : st.Tells env conf.rules this .deliverq) :
    Followed env conf ⟨(fetchDeliver env msgp w.loop).2,
      Function.update w.story this.idx
        (some (st.call this w.loop.world msgp (mailDeliver env this w.loop.world msgp)))⟩ := by
  have hidx : (mailDeliver env this w.loop.world msgp).mctx.idx = this.idx :=
    mailDeliver_idx this w.loop.world msgp
  have hcall := tells_mailDeliver htells w.loop.world msgp
  have hnot := mailDeliver_ret env this w.loop.world msgp
  have halive : w.loop.pc.isAlive = true := by rw [hpc]; rfl
  have hnone : ∀ {P : MailCtx κ δ υ σ → Prop}, ∀ m ∈ ([] : List (MailCtx κ δ υ σ)), P m := nofun
  unfold fetchDeliver at hinv ⊢
  simp only [htodo] at hinv ⊢
  generalize mailDeliver env this w.loop.world msgp = ran at *
  have hmctx {place : Place} {pc : At ρ} (hplace : pc.isAlive = true →
      placeAfter .deliverq ran.ret ran.mctx.done = place) :
      ∀ m ∈ [ran.mctx], m = ran.mctx ∧ (pc.isAlive = true →
        placeAfter .deliverq ran.ret ran.mctx.done = place) :=
    fun m hm => ⟨List.mem_singleton.mp hm, hplace⟩
  cases hret : ran.ret with
  | mailDone => exact absurd hret hnot
  | mailError =>
    simp only [hret] at hinv ⊢
    exact h.called halive htodo hidx hcall hinv nofun rfl (List.append_nil _).symm rfl hnone
      (hmctx nofun) fun l hl => .inl hl
  | fatal =>
    simp only [hret] at hinv ⊢
    exact h.called halive htodo hidx hcall hinv nofun rfl (List.append_nil _).symm rfl hnone
      (hmctx nofun) fun l hl => .inl hl
  | mailMatch =>
    simp only [hret] at hinv ⊢
    exact h.called halive htodo hidx hcall hinv (fun _ => rfl) rfl rfl (List.append_nil _).symm
      (hmctx fun _ => by rw [hret]; rfl) hnone fun l hl => .inl hl
  | mailBlocked =>
    simp only [hret] at hinv ⊢
    exact h.called halive htodo hidx hcall hinv (fun _ => rfl) rfl (List.append_nil _).symm rfl
      hnone (hmctx fun _ => by rw [hret]; rfl) fun l hl => .inl hl
  | mailContinue =>
    simp only [hret] at hinv ⊢
    exact h.called halive htodo hidx hcall hinv (fun _ => rfl) rfl (List.append_nil _).symm rfl
      hnone (hmctx fun _ => by rw [hret]; rfl) fun l hl => .inl hl
  | mailDeliver =>
    simp only [hret] at hinv ⊢
    exact h.called halive htodo hidx hcall hinv (fun _ => rfl) rfl (List.append_nil _).symm rfl
      hnone (hmctx fun _ => by rw [hret]; rfl) fun l hl => .inl hl

/-! ## The fetcher -/

/-- What the fetcher does to the queues: it can put a new mail on the match queue. -/
structure Fetched (conf : Conf κ δ σ) (i : Input σ ρ) (s t : Loop κ δ υ σ γ ρ) : Prop where
  left : t.left = s.left
  deliverq : t.deliverq = s.deliverq
  todo : t.todo = s.todo
  between : ∀ msgp, t.pc ≠ .matching msgp ∧ t.pc ≠ .delivering msgp
  matchq : t.matchq = s.matchq ∨ ∃ m, i.fetch = .mail m ∧
    t.matchq = s.matchq ++ [newCtx conf.rules (s.idx + 1) (enqueuedMail conf m)]

variable (conf) in
theorem fetched_preparePoll (i : Input σ ρ) (s : Loop κ δ υ σ γ ρ) (sockets : ℕ) :
    Fetched conf i s (preparePoll conf sockets s) := by
  unfold preparePoll
  split_ifs
  all_goals exact ⟨rfl, rfl, rfl, fun _ => ⟨nofun, nofun⟩, .inl rfl⟩

/-- A mail that is put into the queue is the one the fetcher gave. -/
theorem fetched_fetchEnqueue {i : Input σ ρ} {m : MailData σ} (hi : i.fetch = .mail m)
    (s : Loop κ δ υ σ γ ρ) : Fetched conf i s (fetchEnqueue conf i.fails m s) := by
  unfold fetchEnqueue
  split
  · split_ifs
    all_goals exact ⟨rfl, rfl, rfl, fun _ => ⟨nofun, nofun⟩, .inl rfl⟩
  · dsimp only
    split
    · exact ⟨rfl, rfl, rfl, fun _ => ⟨nofun, nofun⟩, .inl rfl⟩
    · exact ⟨rfl, rfl, rfl, fun _ => ⟨nofun, nofun⟩, .inr ⟨m, hi, rfl⟩⟩

variable (conf) in
theorem fetched_handleFetch (i : Input σ ρ) (s : Loop κ δ υ σ γ ρ) :
    Fetched conf i s (handleFetch conf i s) := by
  unfold handleFetch
  cases hi : i.fetch with
  | exit =>
    obtain ⟨hleft, hdeliverq, htodo, hbetween, hmatchq⟩ :=
      fetched_preparePoll conf i { s with complete := true } i.sockets
    exact ⟨hleft, hdeliverq, htodo, hbetween, hmatchq⟩
  | block => exact fetched_preparePoll conf i s i.sockets
  | mail m => exact fetched_fetchEnqueue hi s
  | error => exact ⟨rfl, rfl, rfl, fun _ => ⟨nofun, nofun⟩, .inl rfl⟩
  | again => exact ⟨rfl, rfl, rfl, fun _ => ⟨nofun, nofun⟩, .inl rfl⟩

variable (conf) in
/-- Calling the fetcher gives at most one mail. -/
theorem fetched_callFetch (i : Input σ ρ) (s : Loop κ δ υ σ γ ρ) :
    Fetched conf i s (callFetch conf i s) := by
  obtain ⟨total, dropped, purge, hpurge⟩ := fetchPurge_eq conf s
  obtain ⟨holding, hholding⟩ := updateHolding_eq conf (fetchPurge conf s)
  rw [hpurge] at hholding
  unfold callFetch
  rw [hpurge, hholding]
  dsimp only
  split
  · obtain ⟨hleft, hdeliverq, htodo, hbetween, hmatchq⟩ := fetched_handleFetch conf i
      { s with
        lastTotal := total
        lastDropped := dropped
        purge := purge && !i.purged
        holding := holding
        calls := s.calls ++ [⟨s.queued = 0, s.mails.length⟩] }
    exact ⟨hleft, hdeliverq, htodo, hbetween, hmatchq⟩
  · obtain ⟨hleft, hdeliverq, htodo, hbetween, hmatchq⟩ := fetched_preparePoll conf i
      { s with lastTotal := total, lastDropped := dropped, purge := purge, holding := holding }
      i.sockets
    exact ⟨hleft, hdeliverq, htodo, hbetween, hmatchq⟩

/-- A new mail begins its story. -/
theorem followed_callFetch (h : Followed env conf w) (hpc : w.loop.pc = .fetching) (i : Input σ ρ)
    (hinv : Inv conf (callFetch conf i w.loop)) :
    Followed env conf ⟨callFetch conf i w.loop, tell env conf w.loop i w.story⟩ := by
  have halive : w.loop.pc.isAlive = true := by rw [hpc]; rfl
  have hfetched := fetched_callFetch conf i w.loop
  have honMatch : ∀ m ∈ (callFetch conf i w.loop).onMatch, m ∈ (callFetch conf i w.loop).matchq := by
    intro m hm
    rcases mem_onMatch.mp hm with hm | ⟨⟨msgp, hmatching⟩, -⟩
    · exact hm
    · exact absurd hmatching (hfetched.between msgp).1
  have honDeliver : ∀ m ∈ (callFetch conf i w.loop).onDeliver, m ∈ w.loop.deliverq := by
    intro m hm
    rcases mem_onDeliver.mp hm with hm | ⟨⟨msgp, hdelivering⟩, -⟩
    · exact hfetched.deliverq ▸ hm
    · exact absurd hdelivering (hfetched.between msgp).2
  have hmails : ∀ m ∈ (callFetch conf i w.loop).mails,
      m ∈ (callFetch conf i w.loop).matchq ∨ m ∈ w.loop.mails := by
    intro m hm
    simp only [Loop.mails, hfetched.todo, hfetched.deliverq, List.mem_append] at hm ⊢
    tauto
  have hold : (callFetch conf i w.loop).matchq = w.loop.matchq →
      Followed env conf ⟨callFetch conf i w.loop, w.story⟩ := by
    intro hmatchq
    rw [hmatchq] at honMatch hmails
    refine h.keep halive hinv (fun m hm => mem_onMatch.mpr (.inl (honMatch m hm)))
      (fun m hm => mem_onDeliver.mpr (.inl (honDeliver m hm))) (fun m hm => ?_) hfetched.left
    rcases hmails m hm with hm | hm
    · simp [Loop.mails, hm]
    · exact hm
  unfold tell
  simp only [hpc]
  cases hi : i.fetch with
  | mail m =>
    -- a number that no mail has had
    have hnew : ∀ m ∈ w.loop.mails, m.idx ≠ w.loop.idx + 1 := by
      intro m hm heq
      have hle := h.inv.idx_le (List.mem_append_right _ (List.mem_map_of_mem hm))
      omega
    have hmatchq : ∀ m' ∈ (callFetch conf i w.loop).matchq, m' ∈ w.loop.matchq ∨
        m' = newCtx conf.rules (w.loop.idx + 1) (enqueuedMail conf m) := by
      intro m' hm'
      rcases hfetched.matchq with hsame | ⟨n, hn, hadded⟩
      · exact .inl (hsame ▸ hm')
      · obtain rfl : m = n := by simpa [hi] using hn
        rw [hadded] at hm'
        simpa using hm'
    have hqueued : ∀ m' ∈ w.loop.matchq, m' ∈ w.loop.mails := fun m' hm' => by
      simp [Loop.mails, hm']
    refine h.tell halive rfl (tells_newCtx (Nat.succ_ne_zero _) (enqueuedMail conf m))
      (fun l hl heq => ?_) hinv (fun _ m' hm' => ?_) (fun _ m' hm' => ?_) (fun m' hm' => ?_)
      fun l hl => .inl (hfetched.left ▸ hl)
    · have hle := h.inv.idx_le (List.mem_append_left _ (List.mem_map_of_mem hl))
      omega
    · rcases hmatchq m' (honMatch m' hm') with hm' | hm'
      · exact .inl ⟨mem_onMatch.mpr (.inl hm'), hnew m' (hqueued m' hm')⟩
      · exact .inr ⟨hm', rfl⟩
    · have hm' := honDeliver m' hm'
      exact .inl ⟨mem_onDeliver.mpr (.inl hm'), hnew m' (by simp [Loop.mails, hm'])⟩
    · rcases hmails m' hm' with hm' | hm'
      · rcases hmatchq m' hm' with hm' | hm'
        · exact .inl ⟨hqueued m' hm', hnew m' (hqueued m' hm')⟩
        · exact .inr hm'
      · exact .inl ⟨hm', hnew m' hm'⟩
  | error | exit | again | block =>
    refine hold ?_
    rcases hfetched.matchq with hsame | ⟨n, hn, -⟩
    · exact hsame
    · rw [hi] at hn
      cases hn

/-! ## Runs -/

/-- Each step goes on with the story of at most one mail, as its walk over the rules says. -/
theorem followed_next {i : Input σ ρ} {reads : Bool} (h : Followed env conf w)
    (hs : next env conf i w.loop = some (reads, t)) :
    Followed env conf ⟨t, tell env conf w.loop i w.story⟩ := by
  have hinv := inv_next h.inv hs
  unfold next at hs
  cases hpc : w.loop.pc with
  | top =>
    rw [hpc] at hs
    obtain rfl := congrArg Prod.snd (Option.some_inj.mp hs)
    have htodo := h.inv.todo (by rw [hpc]; rfl)
    have hstory : tell env conf w.loop i w.story = w.story := by simp only [tell, hpc]
    have hmails : (startPass w.loop).2.mails = w.loop.mails := by
      unfold startPass
      dsimp only
      split <;> simp [Loop.mails, htodo]
    have honMatch : (startPass w.loop).2.onMatch = w.loop.onMatch := by
      unfold startPass
      dsimp only
      split <;> simp [Loop.onMatch, hpc]
    have honDeliver : (startPass w.loop).2.onDeliver = w.loop.onDeliver := by
      unfold startPass
      dsimp only
      split <;> simp [Loop.onDeliver, hpc]
    rw [hstory]
    refine h.keep (by rw [hpc]; rfl) hinv (fun m hm => honMatch ▸ hm) (fun m hm => honDeliver ▸ hm)
      (fun m hm => hmails ▸ hm) ?_
    unfold startPass
    dsimp only
    split <;> rfl
  | matching msgp =>
    rw [hpc] at hs
    obtain rfl := congrArg Prod.snd (Option.some_inj.mp hs)
    cases htodo : w.loop.todo with
    | nil =>
      have hstory : tell env conf w.loop i w.story = w.story := by simp only [tell, hpc, htodo]
      rw [hstory]
      unfold fetchMatch at hinv ⊢
      simp only [htodo] at hinv ⊢
      refine h.keep (by rw [hpc]; rfl) hinv (fun m hm => ?_) (fun m hm => ?_) (fun m hm => ?_) rfl
      · simpa [Loop.onMatch, hpc, htodo] using hm
      · simpa [Loop.onDeliver, hpc] using hm
      · simpa [Loop.mails, htodo] using hm
    | cons this todo =>
      obtain ⟨st, hst, htells⟩ := h.matchq (by rw [hpc]; rfl) this
        (by simp [Loop.onMatch, hpc, htodo])
      have hstory : tell env conf w.loop i w.story = Function.update w.story this.idx
          (some (st.call this w.loop.world msgp
            (mailMatch env conf.rules this w.loop.world msgp))) := by
        simp only [tell, hpc, htodo, hst, Option.map_some]
      rw [hstory]
      exact followed_fetchMatch h hpc htodo i.fails hinv htells
  | delivering msgp =>
    rw [hpc] at hs
    obtain rfl := congrArg Prod.snd (Option.some_inj.mp hs)
    cases htodo : w.loop.todo with
    | nil =>
      have hstory : tell env conf w.loop i w.story = w.story := by simp only [tell, hpc, htodo]
      rw [hstory]
      unfold fetchDeliver at hinv ⊢
      simp only [htodo] at hinv ⊢
      refine h.keep (by rw [hpc]; rfl) hinv (fun m hm => ?_) (fun m hm => ?_) (fun m hm => ?_) rfl
      · simpa [Loop.onMatch, hpc] using hm
      · simpa [Loop.onDeliver, hpc, htodo] using hm
      · simpa [Loop.mails, htodo] using hm
    | cons this todo =>
      obtain ⟨st, hst, htells⟩ := h.deliverq (by rw [hpc]; rfl) this
        (by simp [Loop.onDeliver, hpc, htodo])
      have hstory : tell env conf w.loop i w.story = Function.update w.story this.idx
          (some (st.call this w.loop.world msgp (mailDeliver env this w.loop.world msgp))) := by
        simp only [tell, hpc, htodo, hst, Option.map_some]
      rw [hstory]
      exact followed_fetchDeliver h hpc htodo hinv htells
  | fetching =>
    rw [hpc] at hs
    obtain rfl := congrArg Prod.snd (Option.some_inj.mp hs)
    exact followed_callFetch h hpc i hinv
  | polling timeout =>
    rw [hpc] at hs
    obtain rfl := congrArg Prod.snd (Option.some_inj.mp hs)
    have hstory : tell env conf w.loop i w.story = w.story := by simp only [tell, hpc]
    rw [hstory]
    dsimp only at hinv ⊢
    by_cases hfails : i.fails = true
    · rw [if_pos hfails] at hinv ⊢
      refine h.keep (by rw [hpc]; rfl) hinv (fun m hm => ?_) (fun m hm => ?_) (fun m hm => hm) rfl
      · simpa [Loop.onMatch, hpc] using hm
      · simpa [Loop.onDeliver, hpc] using hm
    · rw [if_neg hfails] at hinv ⊢
      refine h.keep (by rw [hpc]; rfl) hinv (fun m hm => ?_) (fun m hm => ?_) (fun m hm => hm) rfl
      · simpa [Loop.onMatch, hpc] using hm
      · simpa [Loop.onDeliver, hpc] using hm
  | finished => rw [hpc] at hs; cases hs
  | aborted => rw [hpc] at hs; cases hs
  | fatal => rw [hpc] at hs; cases hs

theorem followed_step {w' : Told κ δ υ σ γ ρ} {i : Input σ ρ} (h : Followed env conf w)
    (hs : toldStep env conf w i = some w') : Followed env conf w' := by
  obtain ⟨t, ht, rfl⟩ := Option.map_eq_some_iff.mp hs
  obtain ⟨⟨reads, u⟩, hnext, hu⟩ := Option.bind_eq_some_iff.mp ht
  have hfollowed := followed_next h hnext
  have hinv := inv_step h.inv ht
  dsimp only at hu
  split_ifs at hu
  obtain rfl := Option.some_inj.mp hu
  exact ⟨hinv, hfollowed.matchq, hfollowed.deliverq, hfollowed.mails, hfollowed.left⟩

/-- There is no story at first. -/
theorem followed_init (env : Env κ δ υ σ γ ρ) (conf : Conf κ δ σ) (world : γ) :
    Followed env conf { loop := { world := world } } where
  inv := inv_init conf world
  matchq _ := nofun
  deliverq _ := nofun
  mails := nofun
  left := nofun

/-- Every run of the loop has its stories. -/
theorem exists_told {s₀ : Loop κ δ υ σ γ ρ} (h : Reach (step env conf) anyStep s₀ s) :
    ∃ story, Reach (toldStep env conf) anyStep ⟨s₀, fun _ => none⟩ ⟨s, story⟩ := by
  have hsimulated : ∃ w, Reach (toldStep env conf) anyStep ⟨s₀, fun _ => none⟩ w ∧ w.loop = s := by
    refine h.simulated (R := fun s (w : Told κ δ υ σ γ ρ) => w.loop = s) rfl ?_
    intro s i s' w hw _ hs
    subst hw
    exact ⟨⟨s', tell env conf w.loop i w.story⟩, .single trivial (by rw [toldStep, hs]; rfl), rfl⟩
  obtain ⟨⟨_, story⟩, hreach, rfl⟩ := hsimulated
  exact ⟨story, hreach⟩

end

/-- In every run of the loop, in whatever order mails are fetched, matched and delivered and the
parent replies, each mail that has left the queue has been evaluated by the rules alone, as it was
when it was put there: with the replies that were for it, and with the world in the states in which
its conditions and actions have found it. What has been done about it is what that evaluation does,
and it has come to its end without an error. Of a mail that is still queued, what has been done is
part of what an evaluation does. -/
theorem rules_pipelined (env : Env κ δ υ σ γ ρ) (conf : Conf κ δ σ) {world : γ}
    {w : Told κ δ υ σ γ ρ}
    (h : Reach (toldStep env conf) anyStep { loop := { world := world } } w) :
    (∀ l ∈ w.loop.left, ∃ st halt sit, Evaluated env conf w.story l st halt sit) ∧
      ∀ m ∈ w.loop.mails, ∃ st, w.story m.idx = some st ∧ ∀ worlds replies,
        st.events <+: (evalRuleset env.seeing conf.rules st.mail (st.found ++ worlds)
          (st.replies ++ replies)).2.events := by
  have hfollowed : Followed env conf w := h.invariant (followed_init env conf world)
    fun _ _ _ hI _ hs => followed_step hI hs
  refine ⟨hfollowed.left, fun m hm => ?_⟩
  obtain ⟨place, st, hst, htells⟩ := hfollowed.mails m hm
  exact ⟨st, hst, fun worlds replies => htells.events worlds replies⟩

/-- Steps in which nothing comes in. -/
def quiet (n : ℕ) : List (Input Unit Unit) := List.replicate n { fetch := .exit }

/-- Two mails ask the parent whether a command matches, and the second one is told first that it
does not. -/
def outOfOrder : List (Input Unit Unit) :=
  quiet 3 ++ { fetch := .mail { data := ['x'], rest := () } } ::
    quiet 4 ++ { fetch := .mail { data := ['y'], rest := () } } ::
    quiet 6 ++ { arrivals := [{ id := 2, error := 0, body := () }] } ::
    quiet 6 ++ { arrivals := [{ id := 1, error := 1, body := () }] } :: quiet 3

theorem rules_pipelined_outOfOrder :
    ((exec (toldStep idleEnv (plainConf askingConf)) { loop := { world := () } } outOfOrder).map
        fun w => (w.loop.left.map Left.idx, w.loop.deliverq.map MailCtx.idx)) =
      some ([2], [1]) ∧
    ∀ w, exec (toldStep idleEnv (plainConf askingConf)) { loop := { world := () } } outOfOrder =
        some w →
      (∀ l ∈ w.loop.left, ∃ st halt sit,
        Evaluated idleEnv (plainConf askingConf) w.story l st halt sit) ∧
      ∀ m ∈ w.loop.mails, ∃ st, w.story m.idx = some st ∧ ∀ worlds replies,
        st.events <+: (evalRuleset idleEnv.seeing askingConf st.mail (st.found ++ worlds)
          (st.replies ++ replies)).2.events :=
  ⟨by decide, fun _ hw => rules_pipelined idleEnv (plainConf askingConf) (reach_of_exec hw)⟩

end Fdm.Account
