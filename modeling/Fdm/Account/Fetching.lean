import Fdm.Account.Pipeline
import Fdm.Account.Purge
import Fdm.Fetch.Loop

/-!
# The loop and its fetcher

`fetch_account` as a whole: the loop over the queues, with the rules, next to the fetcher whose
state function and commit function it calls. The fetch loop that leaves the order of the mails and
their decisions open does all that it does.
-/

namespace Fdm.Account

open Rules Lib.Runs
open Fetch (Fetcher FetchCtx FetchFlags)

variable {κ δ υ σ γ ρ D ς α ι : Type}

/-! ## The fetcher's side -/

/-- What belongs to the fetcher: its context, its data, and its mails that are queued, by number.
`log` has the mails that have been committed, with their decisions, and the number of each that was
queued. -/
structure Side (D ς α : Type) where
  fctx : FetchCtx ς α
  data : D
  held : List (ℕ × Mail α) := []
  log : List (Option ℕ × Mail α) := []

/-- The settings of the loop and of the fetcher. `tags` are the tags that the fetcher gives to a
mail, and `fillIn` is what `fetch_enqueue` does to a mail behind `trim_from`. -/
structure Settings (κ δ σ α : Type) where
  fetch : Fetch.Conf
  rules : Rules.Conf κ δ
  timeout : ℕ
  tags : Mail α → σ
  fillIn : MailData σ → MailData σ

/-- `find_body` and `trim_from`. -/
def trimmed (data : List Char) : List Char :=
  (Mail.withBody { data := data } : Mail Unit).trimFrom.data

/-- The settings that the loop reads. -/
def Settings.conf (set : Settings κ δ σ α) : Conf κ δ σ where
  rules := set.rules
  timeout := set.timeout
  queueHigh := set.fetch.queueHigh
  queueLow := set.fetch.queueLow
  purgeAfter := set.fetch.purgeAfter
  maxSize := set.fetch.maxSize
  delBig := set.fetch.delBig
  keepAll := set.fetch.keepAll
  trimFrom m := { m with data := trimmed m.data }
  fillIn := set.fillIn

section

variable (F : Fetcher D ς α ι)

/-- `a->fetch->commit(a, m)`: whether it fails. There is nothing behind a crash. -/
def Side.commit (n : Option ℕ) (m : Mail α) (side : Side D ς α) : Option (Bool × Side D ς α) :=
  match F.commit m side.data with
  | (.crash, _, _) => none
  | (.error, _, d) => some (true, { side with data := d })
  | (_, m', d) =>
    some (false, { side with data := F.auxfree m' d, log := side.log ++ [(n, m)] })

/-- `a->fetch->abort(a)`, and `fetch_free`. -/
def Side.abort (side : Side D ς α) : Side D ς α :=
  { side with
    data := (side.held.map Prod.snd).foldl (fun d m => F.auxfree m d) (F.abort side.data) }

/-- A mail leaves. -/
def Side.dequeue (idx : ℕ) (decision : Decision) (side : Side D ς α) :
    Option (Bool × Side D ς α) :=
  (side.held.find? fun x => x.1 = idx).bind fun (_, m) =>
    (side.commit F (some idx) { m with decision := decision }).map fun (fails, side) =>
      (fails, if fails then side
        else { side with held := side.held.eraseP fun x => x.1 = idx })

variable (set : Settings κ δ σ α)

/-- The state function returns `FETCH_MAIL`; the last of the mails has been `idx`. -/
def Side.enqueue (idx : ℕ) (m : Mail α) (side : Side D ς α) : Option (Bool × Side D ς α) :=
  if set.fetch.maxSize < m.size then
    if !set.fetch.delBig then some (false, side)
    else side.commit F none { m with decision := .drop }
  else if m.withBody.trimFrom.size = 0 then some (false, side)
  else
    some (false, { side with
      held := side.held ++ [(idx + 1, { m.withBody.trimFrom with decision := .drop })] })

/-- `fctx.state(a, &fctx)`, and what the loop is told of it. -/
def Side.call (s : Loop κ δ υ σ γ ρ) (i : Input σ ρ) (side : Side D ς α) :
    Option (Input σ ρ × Side D ς α) :=
  match F.state side.fctx side.data with
  | (.crash, _, _) => none
  | (.error, fctx, d) => some ({ i with fetch := .error }, { side with fctx := fctx, data := d })
  | (.exit, fctx, d) => some ({ i with fetch := .exit }, { side with fctx := fctx, data := d })
  | (.again, fctx, d) => some ({ i with fetch := .again }, { side with fctx := fctx, data := d })
  | (.block, fctx, d) => some ({ i with fetch := .block }, { side with fctx := fctx, data := d })
  | (.mail, fctx, d) =>
    ({ side with fctx := { fctx with mail := {} }, data := d }.enqueue F set s.idx fctx.mail).map
      fun (fails, side) =>
        ({ i with
            fails := fails
            fetch := .mail { data := fctx.mail.data, rest := set.tags fctx.mail } }, side)

/-- The flags before the call. -/
def Side.flag (s : Loop κ δ υ σ γ ρ) (side : Side D ς α) : Side D ς α :=
  { side with fctx := { side.fctx with flags :=
      { side.fctx.flags with purge := side.fctx.flags.purge || requests set.conf s } } }

/-- `FETCH_EMPTY`. -/
def Side.markEmpty (empty : Bool) (side : Side D ς α) : Side D ς α :=
  { side with fctx := { side.fctx with flags := { side.fctx.flags with empty := empty } } }

/-- The fetcher in a pass of the loop, from `fetch_purge` on. -/
def Side.fetching (s : Loop κ δ υ σ γ ρ) (i : Input σ ρ) (side : Side D ς α) :
    Option (Input σ ρ × Side D ς α) :=
  if !(updateHolding set.conf (fetchPurge set.conf s)).holding && !s.complete then
    ((side.flag set s).markEmpty (s.queued = 0)).call F set s i
  else some (i, side.flag set s)

variable (env : Env κ δ υ σ γ ρ)

/-- What the fetcher does in a step of the loop. -/
def Side.step (s : Loop κ δ υ σ γ ρ) (i : Input σ ρ) (side : Side D ς α) :
    Option (Input σ ρ × Side D ς α) :=
  match s.pc, s.todo with
  | .matching msgp, this :: _ =>
    let ran := mailMatch env set.rules this s.world msgp
    if ran.ret = .mailDone then
      (side.dequeue F this.idx (finalDecision set.conf ran.mctx.mail.decision)).map
        fun (fails, side) => ({ i with fails := fails }, side)
    else some (i, side)
  | .fetching, _ => side.fetching F set s i
  | _, _ => some (i, side)

/-- The loop with its stories, and the fetcher. -/
structure Whole (κ δ υ σ γ ρ D ς α : Type) where
  told : Told κ δ υ σ γ ρ
  side : Side D ς α

/-- One step: something comes in for the fetcher, as long as it can still be called, or the loop
goes on. -/
def wholeStep (c : Whole κ δ υ σ γ ρ D ς α) :
    ι ⊕ Input σ ρ → Option (Whole κ δ υ σ γ ρ D ς α)
  | .inl i =>
    if !c.told.loop.pc.isAlive || c.told.loop.complete && c.side.held.isEmpty then none
    else some { c with side := { c.side with data := F.input i c.side.data } }
  | .inr i =>
    (c.side.step F set env c.told.loop i).bind fun (i, side) =>
      (toldStep env set.conf c.told i).map fun told =>
        ⟨told, if told.loop.pc.isAborted then side.abort F else side⟩

/-- Where `fetch_account` starts. -/
def wholeStart (flags : FetchFlags) (d : D) (world : γ) : Whole κ δ υ σ γ ρ D ς α where
  told := { loop := { world := world } }
  side := { fctx := { state := F.first, flags := flags }, data := d }

end

/-! ## The relation -/

/-- The variables of the loop that the fetch loop has as well. -/
structure Counters where
  dropped : ℕ
  kept : ℕ
  lastTotal : ℕ
  lastDropped : ℕ
  holding : Bool

def Loop.counters (s : Loop κ δ υ σ γ ρ) : Counters :=
  ⟨s.dropped, s.kept, s.lastTotal, s.lastDropped, s.holding⟩

/-- The variables of the fetch loop. -/
def countersOf (l : Fetch.Loop D ς α) : Counters :=
  ⟨l.dropped, l.kept, l.lastTotal, l.lastDropped, l.holding⟩

/-- One more mail is dropped or kept. -/
def Counters.count (c : Counters) : Decision → Counters
  | .drop => { c with dropped := c.dropped + 1 }
  | .keep => { c with kept := c.kept + 1 }

/-- The loop with its fetcher, and a state of the fetch loop. When the fetcher has come to its end
its context and the counters are not looked at any more. -/
structure Sim (set : Settings κ δ σ α) (s : Loop κ δ υ σ γ ρ) (side : Side D ς α)
    (l : Fetch.Loop D ς α) : Prop where
  inv : Inv set.conf s
  data : l.data = side.data
  queue : l.queue = side.held.map Prod.snd
  ids : (side.held.map Prod.fst).Perm (s.mails.map MailCtx.idx)
  aborted : l.aborted = s.pc.isAborted
  complete : l.complete = s.complete
  fctx : s.complete = false → s.pc.isAborted = false → l.fctx = side.fctx
  counters : s.complete = false → s.pc.isAborted = false → countersOf l = s.counters
  polling : ∀ timeout, s.pc = .polling timeout → ¬ (s.complete = true ∧ side.held = [])

section

variable {F : Fetcher D ς α ι} {set : Settings κ δ σ α} {env : Env κ δ υ σ γ ρ}
  {s t : Loop κ δ υ σ γ ρ} {side side' : Side D ς α} {l : Fetch.Loop D ς α}

theorem Sim.length (h : Sim set s side l) : side.held.length = s.queued := by
  have hlength := h.ids.length_eq
  rw [List.length_map, List.length_map] at hlength
  rw [hlength, h.inv.queued]

theorem Sim.queue_length (h : Sim set s side l) : l.queue.length = s.queued := by
  rw [h.queue, List.length_map, h.length]

/-- While a mail is queued the fetch loop has not ended. -/
theorem Sim.not_ended (h : Sim set s side l) (hpc : s.pc.isAborted = false)
    (hheld : s.complete = true → side.held ≠ []) : l.ended = false := by
  rw [Fetch.Loop.ended, h.aborted, hpc, h.complete, h.queue, Bool.false_or, Bool.and_eq_false_iff]
  cases hcomplete : s.complete with
  | false => exact .inl rfl
  | true =>
    refine .inr ?_
    rw [List.isEmpty_eq_false_iff, ne_eq, List.map_eq_nil_iff]
    exact hheld hcomplete

/-- `fetch_poll` is what comes next. -/
def At.isPolling : At ρ → Bool
  | polling _ => true
  | _ => false

theorem ne_polling {pc : At ρ} (h : pc.isPolling = false) : ∀ timeout, pc ≠ .polling timeout := by
  intro timeout hpc
  rw [hpc] at h
  cases h

/-- Mails move, and nothing happens to the fetcher. -/
theorem Sim.quiet (h : Sim set s side l) (hinv : Inv set.conf t)
    (hids : (t.mails.map MailCtx.idx).Perm (s.mails.map MailCtx.idx))
    (hpc : s.pc.isAborted = false) (haborted : t.pc.isAborted = false)
    (hpolling : ∀ timeout, t.pc ≠ .polling timeout) (hcomplete : t.complete = s.complete)
    (hcounters : t.counters = s.counters) : Sim set t side l where
  inv := hinv
  data := h.data
  queue := h.queue
  ids := h.ids.trans hids.symm
  aborted := by rw [h.aborted, hpc, haborted]
  complete := by rw [h.complete, hcomplete]
  fctx hc _ := h.fctx (hcomplete ▸ hc) hpc
  counters hc _ := by rw [hcounters, h.counters (hcomplete ▸ hc) hpc]
  polling timeout ht := absurd ht (hpolling timeout)

/-- The loop is aborted. -/
theorem sim_abort (hinv : Inv set.conf t) (hdata : l.data = side.data)
    (hqueue : l.queue = side.held.map Prod.snd)
    (hids : (side.held.map Prod.fst).Perm (t.mails.map MailCtx.idx))
    (hcomplete : l.complete = t.complete) (hpc : t.pc.isAborted = true) :
    Sim set t (side.abort F) (l.abort F) where
  inv := hinv
  data := by
    show l.queue.foldl _ (F.abort l.data) = _
    rw [hqueue, hdata]
    rfl
  queue := hqueue
  ids := hids
  aborted := hpc.symm
  complete := hcomplete
  fctx _ hnot := absurd hpc (by rw [hnot]; exact Bool.false_ne_true)
  counters _ hnot := absurd hpc (by rw [hnot]; exact Bool.false_ne_true)
  polling timeout ht := by
    rw [ht] at hpc
    cases hpc

/-- A failure that is not the fetcher's aborts the loop. -/
theorem Sim.fail (h : Sim set s side l) (hended : l.ended = false) (hinv : Inv set.conf t)
    (hids : (t.mails.map MailCtx.idx).Perm (s.mails.map MailCtx.idx))
    (hcomplete : t.complete = s.complete) (hpc : t.pc.isAborted = true) :
    ∃ l', Reach (Fetch.step F set.fetch) anyStep l l' ∧ Sim set t (side.abort F) l' :=
  ⟨l.abort F, .single (a := .fail) trivial (by simp [Fetch.step, hended]),
    sim_abort hinv h.data h.queue (h.ids.trans hids.symm) (h.complete.trans hcomplete.symm) hpc⟩

/-! ## Calls -/

/-- A mail that is called goes to the end of a queue. -/
theorem perm_called {this : MailCtx κ δ υ σ} {todo : List (MailCtx κ δ υ σ)}
    (htodo : s.todo = this :: todo) {mctx : MailCtx κ δ υ σ} (hidx : mctx.idx = this.idx)
    {ms ds : List (MailCtx κ δ υ σ)} (hms : ms ++ ds = [mctx]) :
    ((s.matchq ++ ms ++ todo ++ (s.deliverq ++ ds)).map MailCtx.idx).Perm
      (s.mails.map MailCtx.idx) := by
  have hperm : (s.matchq ++ ms ++ todo ++ (s.deliverq ++ ds)).Perm
      (mctx :: (s.matchq ++ todo ++ s.deliverq)) := by
    rcases List.append_eq_singleton_iff.mp hms with ⟨rfl, rfl⟩ | ⟨rfl, rfl⟩
    · rw [List.append_nil, ← List.append_assoc]
      exact List.perm_append_singleton _ _
    · simp only [List.append_nil, List.append_assoc, List.singleton_append]
      exact List.perm_middle
  have hmails : s.mails.Perm (this :: (s.matchq ++ todo ++ s.deliverq)) := by
    simp only [Loop.mails, htodo, List.append_assoc, List.cons_append]
    exact List.perm_middle
  have hmap := (hperm.map MailCtx.idx).trans (by rw [List.map_cons, hidx, ← List.map_cons])
  exact hmap.trans (hmails.map MailCtx.idx).symm

/-- Behind a step of the loop: the fetcher has been aborted with it. -/
def Side.after (F : Fetcher D ς α ι) (t : Loop κ δ υ σ γ ρ) (side : Side D ς α) : Side D ς α :=
  if t.pc.isAborted then side.abort F else side

/-- A step is matched by steps of the fetch loop. -/
def Matched (F : Fetcher D ς α ι) (set : Settings κ δ σ α) (l : Fetch.Loop D ς α)
    (t : Loop κ δ υ σ γ ρ) (side : Side D ς α) : Prop :=
  ∃ l', Reach (Fetch.step F set.fetch) anyStep l l' ∧ Sim set t (side.after F t) l'

theorem Sim.matched (h : Sim set t side l) (hpc : t.pc.isAborted = false) :
    Matched F set l t side :=
  ⟨l, .refl, by rw [Side.after, hpc]; exact h⟩

theorem Sim.matched_fail (h : Sim set s side l) (hended : l.ended = false)
    (hinv : Inv set.conf t) (hids : (t.mails.map MailCtx.idx).Perm (s.mails.map MailCtx.idx))
    (hcomplete : t.complete = s.complete) (hpc : t.pc.isAborted = true) :
    Matched F set l t side := by
  obtain ⟨l', hreach, hsim⟩ := h.fail (F := F) hended hinv hids hcomplete hpc
  exact ⟨l', hreach, by rw [Side.after, hpc]; exact hsim⟩

theorem Matched.trans {l' : Fetch.Loop D ς α} (h : Reach (Fetch.step F set.fetch) anyStep l l')
    (h' : Matched F set l' t side) : Matched F set l t side := by
  obtain ⟨l'', hreach, hsim⟩ := h'
  exact ⟨l'', h.trans hreach, hsim⟩

/-- A mail is queued. -/
theorem Sim.held_ne (h : Sim set s side l) {this : MailCtx κ δ υ σ}
    {todo : List (MailCtx κ δ υ σ)} (htodo : s.todo = this :: todo) : side.held ≠ [] := by
  intro hnil
  have hlength := h.ids.length_eq
  simp [hnil, Loop.mails, htodo] at hlength

/-- A call of `mail_match` that leaves the mail on a queue, or fails. -/
theorem matched_fetchMatch (h : Sim set s side l) {msgp : Option (Msg ρ)}
    (hpc : s.pc = .matching msgp) {this : MailCtx κ δ υ σ} {todo : List (MailCtx κ δ υ σ)}
    (htodo : s.todo = this :: todo) (fails : Bool)
    (hret : (mailMatch env set.rules this s.world msgp).ret ≠ .mailDone)
    (hinv : Inv set.conf (fetchMatch env set.conf fails msgp s).2) :
    Matched F set l (fetchMatch env set.conf fails msgp s).2 side := by
  have halive : s.pc.isAborted = false := by rw [hpc]; rfl
  have hnot : ∀ timeout, s.pc ≠ .polling timeout := ne_polling (by rw [hpc]; rfl)
  have hended := h.not_ended halive fun _ => h.held_ne htodo
  have hidx : (mailMatch env set.conf.rules this s.world msgp).mctx.idx = this.idx :=
    mailMatch_idx this s.world msgp
  have hmatchq := perm_called htodo hidx (List.append_nil [_])
  have hdeliverq := perm_called htodo hidx (List.nil_append [_])
  rw [List.append_nil] at hmatchq hdeliverq
  unfold fetchMatch at hinv ⊢
  simp only [htodo] at hinv ⊢
  change (mailMatch env set.conf.rules this s.world msgp).ret ≠ .mailDone at hret
  generalize mailMatch env set.conf.rules this s.world msgp = ran at *
  cases hran : ran.ret with
  | mailDone => exact absurd hran hret
  | mailError =>
    simp only [hran] at hinv ⊢
    exact h.matched_fail hended hinv hmatchq rfl rfl
  | fatal =>
    simp only [hran] at hinv ⊢
    exact (h.quiet hinv hmatchq halive rfl (ne_polling rfl) rfl rfl).matched rfl
  | mailDeliver =>
    simp only [hran] at hinv ⊢
    exact (h.quiet hinv hdeliverq halive halive hnot rfl rfl).matched halive
  | mailBlocked | mailContinue | mailMatch =>
    simp only [hran] at hinv ⊢
    exact (h.quiet hinv hmatchq halive halive hnot rfl rfl).matched halive

/-- A call of `mail_deliver`. -/
theorem matched_fetchDeliver (h : Sim set s side l) {msgp : Option (Msg ρ)}
    (hpc : s.pc = .delivering msgp) {this : MailCtx κ δ υ σ} {todo : List (MailCtx κ δ υ σ)}
    (htodo : s.todo = this :: todo) (hinv : Inv set.conf (fetchDeliver env msgp s).2) :
    Matched F set l (fetchDeliver env msgp s).2 side := by
  have halive : s.pc.isAborted = false := by rw [hpc]; rfl
  have hnot : ∀ timeout, s.pc ≠ .polling timeout := ne_polling (by rw [hpc]; rfl)
  have hended := h.not_ended halive fun _ => h.held_ne htodo
  have hidx : (mailDeliver env this s.world msgp).mctx.idx = this.idx :=
    mailDeliver_idx this s.world msgp
  have hmatchq := perm_called htodo hidx (List.append_nil [_])
  have hdeliverq := perm_called htodo hidx (List.nil_append [_])
  rw [List.append_nil] at hmatchq hdeliverq
  unfold fetchDeliver at hinv ⊢
  simp only [htodo] at hinv ⊢
  generalize mailDeliver env this s.world msgp = ran at *
  cases hran : ran.ret with
  | mailError =>
    simp only [hran] at hinv ⊢
    exact h.matched_fail hended hinv hdeliverq rfl rfl
  | fatal =>
    simp only [hran] at hinv ⊢
    exact (h.quiet hinv hdeliverq halive rfl (ne_polling rfl) rfl rfl).matched rfl
  | mailMatch =>
    simp only [hran] at hinv ⊢
    exact (h.quiet hinv hmatchq halive halive hnot rfl rfl).matched halive
  | mailBlocked | mailContinue | mailDeliver | mailDone =>
    simp only [hran] at hinv ⊢
    exact (h.quiet hinv hdeliverq halive halive hnot rfl rfl).matched halive

/-! ## Commits -/

/-- Where the element that `find?` finds is. -/
theorem exists_find {β : Type} {xs : List β} {p : β → Bool} {b : β} (h : xs.find? p = some b) :
    ∃ n, xs[n]? = some b ∧ xs.eraseP p = xs.eraseIdx n := by
  induction xs with
  | nil => cases h
  | cons x xs ih =>
    by_cases hx : p x = true
    · rw [List.find?_cons_of_pos hx] at h
      exact ⟨0, h, List.eraseP_cons_of_pos hx⟩
    · rw [List.find?_cons_of_neg hx] at h
      obtain ⟨n, hn, herase⟩ := ih h
      exact ⟨n + 1, hn, by rw [List.eraseP_cons_of_neg hx, herase]; rfl⟩

theorem countersOf_count (l : Fetch.Loop D ς α) (dec : Decision) :
    countersOf (l.count dec) = (countersOf l).count dec := by
  cases dec <;> rfl

theorem counters_fetchDequeue (conf : Conf κ δ σ) (fails : Bool) (mctx : MailCtx κ δ υ σ)
    (u : Loop κ δ υ σ γ ρ) : (fetchDequeue conf fails mctx u).counters =
      u.counters.count (finalDecision conf mctx.mail.decision) := by
  unfold fetchDequeue
  cases finalDecision conf mctx.mail.decision <;> dsimp only <;> split <;> rfl

/-- Counting a mail changes nothing but the counters. -/
theorem count_eq (l : Fetch.Loop D ς α) (dec : Decision) :
    ∃ n k, l.count dec = { l with dropped := n, kept := k } := by
  cases dec with
  | drop => exact ⟨_, _, rfl⟩
  | keep => exact ⟨_, _, rfl⟩

/-- What `commit` returns, with and without an error. -/
theorem commit_cases {n : Option ℕ} {m : Mail α} {fails : Bool}
    (h : side.commit F n m = some (fails, side')) :
    (∃ m' d, F.commit m side.data = (.error, m', d) ∧ fails = true ∧
        side' = { side with data := d }) ∨
      ∃ code m' d, F.commit m side.data = (code, m', d) ∧ code ≠ .error ∧ code ≠ .crash ∧
        fails = false ∧
        side' = { side with data := F.auxfree m' d, log := side.log ++ [(n, m)] } := by
  unfold Side.commit at h
  rcases hcommit : F.commit m side.data with ⟨code, m', d⟩
  rw [hcommit] at h
  cases code with
  | crash => cases h
  | error =>
    obtain ⟨rfl, rfl⟩ := Prod.mk.inj (Option.some.inj h)
    exact .inl ⟨m', d, rfl, rfl, rfl⟩
  | again | block | mail | exit =>
    obtain ⟨rfl, rfl⟩ := Prod.mk.inj (Option.some.inj h)
    exact .inr ⟨_, m', d, rfl, nofun, nofun, rfl, rfl⟩

/-- The mail at `n` has been committed and leaves the queue. -/
theorem sim_fetchDequeue (h : Sim set s side l) (hpc : s.pc.isAborted = false)
    (hnot : ∀ timeout, s.pc ≠ .polling timeout) {u : Loop κ δ υ σ γ ρ}
    (hbooks : u.counters = s.counters) (hcomplete : u.complete = s.complete) (hupc : u.pc = s.pc)
    {idx : ℕ} (hids : (idx :: u.mails.map MailCtx.idx).Perm (s.mails.map MailCtx.idx))
    {mctx : MailCtx κ δ υ σ} {n : ℕ} {m : Mail α} (hn : side.held[n]? = some (idx, m))
    (hinv : Inv set.conf (fetchDequeue set.conf false mctx u)) (m' : Mail α) (d : D) :
    Sim set (fetchDequeue set.conf false mctx u)
      { side with
        data := F.auxfree m' d
        held := side.held.eraseIdx n
        log := side.log ++
          [(some idx, { m with decision := finalDecision set.conf mctx.mail.decision })] }
      (({ l with data := F.auxfree m' d, queue := l.queue.eraseIdx n } :
        Fetch.Loop D ς α).count (finalDecision set.conf mctx.mail.decision)) := by
  have hpc' : (fetchDequeue set.conf false mctx u).pc = s.pc := by
    rw [← hupc]
    simp [fetchDequeue]
  have hmails : (fetchDequeue set.conf false mctx u).mails = u.mails := by
    simp [fetchDequeue, Loop.mails]
  have hcomplete' : (fetchDequeue set.conf false mctx u).complete = s.complete := by
    rw [← hcomplete]
    simp [fetchDequeue]
  generalize hl' : ({ l with data := F.auxfree m' d, queue := l.queue.eraseIdx n } :
    Fetch.Loop D ς α).count (finalDecision set.conf mctx.mail.decision) = l'
  obtain ⟨dropped, kept, hcount⟩ := count_eq
    { l with data := F.auxfree m' d, queue := l.queue.eraseIdx n }
    (finalDecision set.conf mctx.mail.decision)
  rw [hl'] at hcount
  exact
    { inv := hinv
      data := by rw [hcount]
      queue := by
        rw [hcount]
        show l.queue.eraseIdx n = _
        rw [h.queue, List.eraseIdx_map]
      ids := by
        rw [hmails]
        obtain ⟨hlt, hget⟩ := List.getElem?_eq_some_iff.mp hn
        have hperm := (List.getElem_cons_eraseIdx_perm hlt).map Prod.fst
        rw [List.map_cons, hget] at hperm
        exact (hperm.trans (h.ids.trans hids.symm)).cons_inv
      aborted := by
        rw [hcount, hpc']
        exact h.aborted
      complete := by
        rw [hcount, hcomplete']
        exact h.complete
      fctx := fun hc _ => by
        rw [hcount]
        exact h.fctx (hcomplete' ▸ hc) hpc
      counters := fun hc _ => by
        rw [← hl', countersOf_count, counters_fetchDequeue, hbooks,
          ← h.counters (hcomplete' ▸ hc) hpc]
        rfl
      polling := fun timeout ht => absurd (hpc'.symm.trans ht) (hnot timeout) }

/-- A mail leaves, or its commit fails. -/
theorem matched_fetchDequeue (h : Sim set s side l) (hpc : s.pc.isAborted = false)
    (hnot : ∀ timeout, s.pc ≠ .polling timeout) {u : Loop κ δ υ σ γ ρ}
    (hbooks : u.counters = s.counters) (hcomplete : u.complete = s.complete) (hupc : u.pc = s.pc)
    {this : MailCtx κ δ υ σ} {todo : List (MailCtx κ δ υ σ)} (htodo : s.todo = this :: todo)
    (hmatchq : u.matchq = s.matchq) (hutodo : u.todo = todo) (hdeliverq : u.deliverq = s.deliverq)
    {mctx : MailCtx κ δ υ σ} (hidx : mctx.idx = this.idx) {fails : Bool}
    (hside : side.dequeue F this.idx (finalDecision set.conf mctx.mail.decision) =
      some (fails, side'))
    (hinv : Inv set.conf (fetchDequeue set.conf fails mctx u)) :
    Matched F set l (fetchDequeue set.conf fails mctx u) side' := by
  obtain ⟨⟨idx, m⟩, hfind, hmap⟩ := Option.bind_eq_some_iff.mp hside
  obtain ⟨⟨fails', side₁⟩, hcommit, hresult⟩ := Option.map_eq_some_iff.mp hmap
  obtain ⟨rfl, rfl⟩ := Prod.mk.inj hresult
  obtain ⟨n, hn, herase⟩ := exists_find hfind
  obtain rfl : idx = this.idx := by simpa using List.find?_some hfind
  have hqueue : l.queue[n]? = some m := by rw [h.queue, List.getElem?_map, hn]; rfl
  have hended := h.not_ended hpc fun _ => h.held_ne htodo
  have hdequeue : Fetch.step F set.fetch l (.dequeue n mctx.mail.decision) =
      some (l.dequeue F set.fetch n m mctx.mail.decision) := by
    simp [Fetch.step, hended, hqueue]
  have hdecision : (if set.fetch.keepAll then Decision.keep else mctx.mail.decision) =
      finalDecision set.conf mctx.mail.decision := by
    simp [finalDecision, Settings.conf]
  have hmails : u.mails = s.matchq ++ todo ++ s.deliverq := by
    rw [Loop.mails, hmatchq, hutodo, hdeliverq]
  have hids : (this.idx :: (u.mails.map MailCtx.idx)).Perm (s.mails.map MailCtx.idx) := by
    rw [hmails, ← List.map_cons]
    refine List.Perm.map _ ?_
    simp only [Loop.mails, htodo, List.append_assoc, List.cons_append]
    exact List.perm_middle.symm
  refine ⟨_, .single trivial hdequeue, ?_⟩
  dsimp only [Fetch.Loop.dequeue]
  rw [hdecision, h.data]
  rcases commit_cases hcommit with ⟨m', d, hreturn, rfl, rfl⟩ |
    ⟨code, m', d, hreturn, herror, hcrash, rfl, rfl⟩
  · -- the mail stays on the queue while the loop is aborted
    rw [hreturn]
    obtain ⟨dropped, kept, hcount⟩ :=
      count_eq { l with data := d } (finalDecision set.conf mctx.mail.decision)
    have hfail : fetchDequeue set.conf true mctx u =
        { u with
          dropped := (fetchDequeue set.conf true mctx u).dropped
          kept := (fetchDequeue set.conf true mctx u).kept
          pc := .aborted
          matchq := u.matchq ++ [mctx] } := rfl
    dsimp only
    rw [hcount, Side.after, hfail, if_pos rfl]
    refine sim_abort (hfail ▸ hinv) rfl h.queue ?_ (h.complete.trans hcomplete.symm) rfl
    refine h.ids.trans (hids.symm.trans ?_)
    simp only [Loop.mails, List.map_append, List.map_cons, hidx, List.append_assoc,
      List.singleton_append]
    exact List.perm_middle.symm
  · have hpc' : (fetchDequeue set.conf false mctx u).pc = s.pc := by
      rw [← hupc]
      simp [fetchDequeue]
    have hsim := sim_fetchDequeue (F := F) h hpc hnot hbooks hcomplete hupc hids hn hinv m' d
    rw [Side.after, hpc', hpc, hreturn]
    dsimp only
    rw [if_neg Bool.false_ne_true, if_neg Bool.false_ne_true, herase]
    cases code with
    | error => exact absurd rfl herror
    | crash => exact absurd rfl hcrash
    | again | block | mail | exit =>
      exact hsim

/-! ## Fetches -/

theorem trimmed_eq (m : Mail α) : trimmed m.data = m.withBody.trimFrom.data := by
  unfold trimmed Mail.trimFrom Mail.withBody Mail.findBody Mail.size
  dsimp only
  split_ifs <;> rfl

/-- `fetch_purge` as the fetch loop has it, and as long as the counters do not wrap. -/
theorem counters_purge (h : Sim set s side l) (hcomplete : s.complete = false)
    (hpc : s.pc.isAborted = false) (hwrap : s.dropped + s.kept < 2 ^ 32) :
    countersOf (l.purge set.fetch) = (fetchPurge set.conf s).counters ∧
      (l.purge set.fetch).fctx = (side.flag set s).fctx := by
  have hcounters := h.counters hcomplete hpc
  have hfctx := h.fctx hcomplete hpc
  obtain ⟨hdropped, hkept, htotal, hlast, hholding⟩ := Counters.mk.inj hcounters
  have hn : (s.dropped + s.kept) % 2 ^ 32 = s.dropped + s.kept := Nat.mod_eq_of_lt hwrap
  have hd : s.dropped % 2 ^ 32 = s.dropped := Nat.mod_eq_of_lt (by omega)
  have hafter : set.conf.purgeAfter = set.fetch.purgeAfter := rfl
  unfold Side.flag requests Fetch.Loop.purge fetchPurge
  simp only [hn, hd, hafter, hdropped, hkept, htotal, hlast, hfctx]
  by_cases hzero : set.fetch.purgeAfter = 0
  · rw [if_pos (.inl hzero), if_pos hzero, if_pos hzero]
    exact ⟨hcounters, by simp [hfctx]⟩
  by_cases hmultiple : s.dropped + s.kept = s.lastTotal ∨
      (s.dropped + s.kept) % set.fetch.purgeAfter ≠ 0
  · rw [if_pos (.inr hmultiple), if_neg hzero, if_pos hmultiple, if_neg hzero, if_pos hmultiple]
    exact ⟨hcounters, by simp [hfctx]⟩
  rw [if_neg (by tauto), if_neg hzero, if_neg hmultiple, if_neg hzero, if_neg hmultiple]
  by_cases hsame : s.lastDropped = s.dropped
  · rw [if_pos hsame, if_pos hsame, if_pos hsame]
    simp [countersOf, Loop.counters, hholding]
  · rw [if_neg hsame, if_neg hsame, if_neg hsame]
    simp [countersOf, Loop.counters, hholding]

theorem counters_hold {u : Loop κ δ υ σ γ ρ} (hcounters : countersOf l = u.counters)
    (hqueue : l.queue.length = u.queued) :
    countersOf (l.hold set.fetch) = (updateHolding set.conf u).counters := by
  obtain ⟨hdropped, hkept, htotal, hlast, hholding⟩ := Counters.mk.inj hcounters
  have hhigh : set.conf.queueHigh = set.fetch.queueHigh := rfl
  have hlow : set.conf.queueLow = set.fetch.queueLow := rfl
  unfold Fetch.Loop.hold updateHolding
  rw [hqueue, hhigh, hlow]
  dsimp only
  split_ifs <;> simp [countersOf, Loop.counters, *] at *

/-- What happens before the fetch function is called. -/
theorem prepared_eq (conf : Conf κ δ σ) (s : Loop κ δ υ σ γ ρ) : ∃ total dropped purge holding,
    updateHolding conf (fetchPurge conf s) = { s with
      lastTotal := total, lastDropped := dropped, purge := purge, holding := holding } := by
  obtain ⟨total, dropped, purge, hpurge⟩ := fetchPurge_eq conf s
  obtain ⟨holding, hholding⟩ := updateHolding_eq conf (fetchPurge conf s)
  exact ⟨total, dropped, purge, holding, by rw [hholding, hpurge]⟩

theorem inv_prepared {conf : Conf κ δ σ} (h : Inv conf s) (hpc : s.pc = .fetching) :
    Inv conf (updateHolding conf (fetchPurge conf s)) := by
  obtain ⟨total, dropped, purge, holding, hu⟩ := prepared_eq conf s
  rw [hu]
  refine h.move rfl (List.Perm.refl _) (fun _ => by rw [hpc]; rfl) (fun hf => ?_)
    fun _ => h.todo (by rw [hpc]; rfl)
  rw [show s.pc = _ from hpc] at hf
  cases hf

/-- The two loops before the fetch function is called. -/
theorem Sim.prepared (h : Sim set s side l) (hpc : s.pc = .fetching)
    (hcomplete : s.complete = false) (hwrap : s.dropped + s.kept < 2 ^ 32) :
    Sim set (updateHolding set.conf (fetchPurge set.conf s)) (side.flag set s)
      ((l.purge set.fetch).hold set.fetch) := by
  have halive : s.pc.isAborted = false := by rw [hpc]; rfl
  have hinv := inv_prepared h.inv hpc
  obtain ⟨hcounters, hfctx⟩ := counters_purge h hcomplete halive hwrap
  have hagree := Fetch.agree_prepare set.fetch l
  have hhold : countersOf ((l.purge set.fetch).hold set.fetch) =
      (updateHolding set.conf (fetchPurge set.conf s)).counters := by
    refine counters_hold hcounters ?_
    obtain ⟨total, dropped, purge, hpurge⟩ := fetchPurge_eq set.conf s
    rw [(Fetch.agree_purge set.fetch l).queue, hpurge]
    exact h.queue_length
  obtain ⟨total, dropped, purge, holding, hu⟩ := prepared_eq set.conf s
  rw [hu] at hinv hhold ⊢
  exact {
    inv := hinv
    data := hagree.data.trans h.data
    queue := hagree.queue.trans h.queue
    ids := h.ids
    aborted := hagree.aborted.trans h.aborted
    complete := hagree.complete.trans h.complete
    fctx := fun _ _ => (Fetch.fctx_hold set.fetch _).trans hfctx
    counters := fun _ _ => hhold
    polling := fun timeout ht => by rw [show s.pc = _ from hpc] at ht; cases ht }

/-- `FETCH_EMPTY` says the same in both. -/
theorem Sim.markEmpty (h : Sim set s side l) :
    Sim set s (side.markEmpty (s.queued = 0)) l.markEmpty := by
  have hempty : l.queue.isEmpty = decide (s.queued = 0) := by
    rw [← h.queue_length]
    cases l.queue <;> simp
  exact { h with
    fctx := fun hcomplete halive => by
      show ({ l.fctx with flags := { l.fctx.flags with empty := l.queue.isEmpty } } :
        FetchCtx ς α) = _
      rw [h.fctx hcomplete halive, hempty]
      rfl
    counters := fun hcomplete halive => h.counters hcomplete halive }

/-- Behind the fetcher. -/
theorem Sim.preparePoll (h : Sim set s side l) (halive : s.pc.isAborted = false)
    (htodo : s.todo = []) (sockets : ℕ) : Matched F set l (preparePoll set.conf sockets s) side := by
  have hinv := inv_preparePoll h.inv halive htodo sockets
  unfold Account.preparePoll at hinv ⊢
  split_ifs at hinv ⊢ with hend
  · exact Sim.matched (h.quiet hinv (List.Perm.refl _) halive rfl (ne_polling rfl) rfl rfl) rfl
  · refine Sim.matched ?_ rfl
    exact {
      inv := hinv
      data := h.data
      queue := h.queue
      ids := h.ids
      aborted := h.aborted.trans halive
      complete := h.complete
      fctx := fun hc _ => h.fctx hc halive
      counters := fun hc _ => h.counters hc halive
      polling := fun timeout ht hnone => hend ⟨hnone.1, by rw [← h.length, hnone.2]; rfl⟩ }

/-- A new mail goes to the end of a queue. -/
theorem perm_enqueued {ids : List ℕ} (hids : ids.Perm (s.mails.map MailCtx.idx)) {n : ℕ}
    {mctx : MailCtx κ δ υ σ} (hidx : mctx.idx = n) :
    (ids ++ [n]).Perm ((s.matchq ++ [mctx] ++ s.todo ++ s.deliverq).map MailCtx.idx) := by
  have hperm : (s.mails ++ [mctx]).Perm (s.matchq ++ [mctx] ++ s.todo ++ s.deliverq) := by
    simp only [Loop.mails, List.append_assoc, List.singleton_append]
    refine List.Perm.append_left _ ?_
    rw [← List.append_assoc]
    exact List.perm_append_singleton _ _
  refine List.Perm.trans ?_ (hperm.map MailCtx.idx)
  rw [List.map_append, List.map_singleton, hidx]
  exact hids.append_right _

/-- A mail is fetched. -/
theorem sim_fetchEnqueue (h : Sim set s side l) (halive : s.pc.isAborted = false)
    (hcomplete : s.complete = false) {m : Mail α} {fails : Bool} {rest : σ}
    (hinv : Inv set.conf (fetchEnqueue set.conf fails { data := m.data, rest := rest } s))
    (hside : side.enqueue F set s.idx m = some (fails, side')) :
    Sim set (fetchEnqueue set.conf fails { data := m.data, rest := rest } s)
      (side'.after F (fetchEnqueue set.conf fails { data := m.data, rest := rest } s))
      (l.enqueue F set.fetch m) := by
  have hfctx := h.fctx hcomplete halive
  have hcounters := h.counters hcomplete halive
  unfold Side.enqueue at hside
  unfold Fetch.Loop.enqueue
  unfold fetchEnqueue at hinv ⊢
  have hsize : set.conf.maxSize < ({ data := m.data, rest := rest } : MailData σ).data.length ↔
      set.fetch.maxSize < m.size := Iff.rfl
  have hbig : set.conf.delBig = set.fetch.delBig := rfl
  have htrim : (set.conf.trimFrom { data := m.data, rest := rest }).data.length =
      m.withBody.trimFrom.size := congrArg List.length (trimmed_eq m)
  simp only [hsize, hbig] at hinv ⊢
  by_cases hmax : set.fetch.maxSize < m.size
  · simp only [if_pos hmax] at hside hinv ⊢
    cases hdel : set.fetch.delBig with
    | false =>
      simp only [hdel, Bool.not_false, if_true] at hside hinv ⊢
      obtain ⟨rfl, rfl⟩ := Prod.mk.inj (Option.some.inj hside)
      exact sim_abort hinv h.data h.queue h.ids h.complete rfl
    | true =>
      simp only [hdel, Bool.not_true, Bool.false_eq_true, if_false] at hside hinv ⊢
      have hcommit : set.conf.commit = true := rfl
      simp only [hcommit, Bool.not_true, Bool.false_eq_true, if_false] at hinv ⊢
      rw [h.data]
      rcases commit_cases hside with ⟨m', d, hreturn, rfl, rfl⟩ |
        ⟨code, m', d, hreturn, herror, hcrash, rfl, rfl⟩
      · rw [hreturn]
        exact sim_abort hinv rfl h.queue h.ids h.complete rfl
      · rw [hreturn]
        simp only [Bool.false_eq_true, if_false] at hinv ⊢
        have hsim := { h with
          inv := hinv
          data := rfl
          aborted := h.aborted.trans halive
          fctx := fun _ _ => hfctx
          counters := fun _ _ => hcounters
          polling := nofun : Sim set _ { side with
            data := F.auxfree m' d
            log := side.log ++ [(none, { m with decision := .drop })] }
            { l with data := F.auxfree m' d } }
        cases code with
        | error => exact absurd rfl herror
        | crash => exact absurd rfl hcrash
        | again | block | mail | exit => exact hsim
  · simp only [if_neg hmax, htrim] at hside hinv ⊢
    by_cases hempty : m.withBody.trimFrom.size = 0
    · simp only [if_pos hempty] at hside hinv ⊢
      obtain ⟨rfl, rfl⟩ := Prod.mk.inj (Option.some.inj hside)
      exact sim_abort hinv h.data h.queue h.ids h.complete rfl
    · simp only [if_neg hempty] at hside hinv ⊢
      obtain ⟨rfl, rfl⟩ := Prod.mk.inj (Option.some.inj hside)
      exact {
        inv := hinv
        data := h.data
        queue := by
          show l.queue ++ _ = (side.held ++ _).map Prod.snd
          rw [h.queue, List.map_append]
          rfl
        ids := by
          show ((side.held ++ [_]).map Prod.fst).Perm _
          rw [List.map_append]
          exact perm_enqueued h.ids rfl
        aborted := h.aborted.trans halive
        complete := h.complete
        fctx := fun _ _ => hfctx
        counters := fun _ _ => hcounters
        polling := nofun }

/-- What the state function returns. -/
theorem matched_handleFetch (h : Sim set s side l)
    (hpc : s.pc = .fetching) (hcomplete : s.complete = false) (htodo : s.todo = [])
    {i₀ i : Input σ ρ} (hinv : Inv set.conf (handleFetch set.conf i s))
    (hside : side.call F set s i₀ = some (i, side')) :
    Matched F set (l.call F set.fetch) (handleFetch set.conf i s) side' := by
  have halive : s.pc.isAborted = false := by rw [hpc]; rfl
  have hfctx := h.fctx hcomplete halive
  unfold Side.call at hside
  unfold Fetch.Loop.call
  rw [hfctx, h.data]
  rcases hstate : F.state side.fctx side.data with ⟨code, fctx, d⟩
  have hmoved : Sim set s { side with fctx := fctx, data := d }
      { l with fctx := fctx, data := d } :=
    { h with
      data := rfl
      fctx := fun _ _ => rfl
      counters := fun _ _ => h.counters hcomplete halive }
  rw [hstate] at hside
  cases code with
  | crash => cases hside
  | error =>
    obtain ⟨rfl, rfl⟩ := Prod.mk.inj (Option.some.inj hside)
    exact ⟨_, .refl, sim_abort hinv rfl h.queue h.ids h.complete rfl⟩
  | again =>
    obtain ⟨rfl, rfl⟩ := Prod.mk.inj (Option.some.inj hside)
    exact (hmoved.quiet hinv (List.Perm.refl _) halive rfl (ne_polling rfl) rfl rfl).matched rfl
  | block =>
    obtain ⟨rfl, rfl⟩ := Prod.mk.inj (Option.some.inj hside)
    exact hmoved.preparePoll halive htodo _
  | exit =>
    obtain ⟨rfl, rfl⟩ := Prod.mk.inj (Option.some.inj hside)
    have hexit : Sim set { s with complete := true } { side with fctx := fctx, data := d }
        { l with fctx := fctx, data := d, complete := true } :=
      { inv := h.inv.move rfl (List.Perm.refl _) (fun _ => halive)
          (fun hf => by rw [show s.pc = _ from hpc] at hf; cases hf) fun _ => htodo
        data := rfl
        queue := h.queue
        ids := h.ids
        aborted := h.aborted
        complete := rfl
        fctx := nofun
        counters := nofun
        polling := fun timeout ht => by rw [show s.pc = _ from hpc] at ht; cases ht }
    exact hexit.preparePoll halive htodo _
  | mail =>
    obtain ⟨⟨fails, side₁⟩, henqueue, hresult⟩ := Option.map_eq_some_iff.mp hside
    obtain ⟨rfl, rfl⟩ := Prod.mk.inj hresult
    have hcleared : Sim set s { side with fctx := { fctx with mail := {} }, data := d }
        { l with fctx := { fctx with mail := {} }, data := d } :=
      { hmoved with fctx := fun _ _ => rfl }
    exact ⟨_, .refl, sim_fetchEnqueue hcleared halive hcomplete hinv henqueue⟩

/-- The part of a pass behind `fetch_deliver`. -/
theorem matched_callFetch (h : Sim set s side l) (hpc : s.pc = .fetching)
    (hwrap : s.dropped + s.kept < 2 ^ 32) {i₀ i : Input σ ρ}
    (hinv : Inv set.conf (callFetch set.conf i s))
    (hside : side.fetching F set s i₀ = some (i, side')) :
    Matched F set l (callFetch set.conf i s) side' := by
  have halive : s.pc.isAborted = false := by rw [hpc]; rfl
  have htodo := h.inv.todo (by rw [hpc]; rfl)
  have hprepared := inv_prepared h.inv hpc
  have hsim := fun hcomplete => h.prepared hpc hcomplete hwrap
  unfold Side.fetching at hside
  unfold callFetch at hinv ⊢
  obtain ⟨total, dropped, purge, holding, hu⟩ := prepared_eq set.conf s
  rw [hu] at hside hinv hprepared hsim ⊢
  dsimp only at hside hinv ⊢
  rcases Bool.eq_false_or_eq_true s.complete with hcomplete | hcomplete
  · -- the fetcher has come to its end
    have hskip : ¬ (!holding && !s.complete) = true := by simp [hcomplete]
    rw [if_neg hskip] at hside ⊢
    obtain ⟨rfl, rfl⟩ := Prod.mk.inj (Option.some.inj hside)
    have hidle : Sim set { s with
        lastTotal := total, lastDropped := dropped, purge := purge, holding := holding }
        (side.flag set s) l :=
      { inv := hprepared
        data := h.data
        queue := h.queue
        ids := h.ids
        aborted := h.aborted
        complete := h.complete
        fctx := fun hc => absurd (hc.symm.trans hcomplete) Bool.false_ne_true
        counters := fun hc => absurd (hc.symm.trans hcomplete) Bool.false_ne_true
        polling := fun timeout ht => by rw [show s.pc = _ from hpc] at ht; cases ht }
    exact hidle.preparePoll halive htodo _
  · have hsim := hsim hcomplete
    have hended : l.ended = false :=
      h.not_ended halive fun hc => absurd (hcomplete.symm.trans hc) Bool.false_ne_true
    have hholding := congrArg Counters.holding (hsim.counters hcomplete halive)
    have hcalls : l.calls set.fetch = !holding := by
      rw [Fetch.Loop.calls, h.complete, hcomplete, Bool.not_false, Bool.and_true]
      exact congrArg not hholding
    have hpass : Fetch.step F set.fetch l .pass = some (l.pass F set.fetch) := by
      simp [Fetch.step, hended]
    refine Matched.trans (.single trivial hpass) ?_
    rw [Fetch.Loop.pass, hcalls]
    cases holding with
    | true =>
      rw [if_neg (by simp)] at hside
      rw [if_neg (by simp), if_neg (by simp)]
      obtain ⟨rfl, rfl⟩ := Prod.mk.inj (Option.some.inj hside)
      exact hsim.preparePoll halive htodo _
    | false =>
      have hcall : (!false && !s.complete) = true := by simp [hcomplete]
      rw [if_pos hcall] at hside hinv
      rw [if_pos hcall, if_pos (by rfl)]
      have hcalled : Sim set { s with
          lastTotal := total
          lastDropped := dropped
          holding := false
          calls := s.calls ++ [⟨s.queued = 0, s.mails.length⟩]
          purge := purge && !i.purged } ((side.flag set s).markEmpty (s.queued = 0))
          ((l.purge set.fetch).hold set.fetch).markEmpty :=
        { hsim.markEmpty with inv := inv_calls hprepared _ }
      exact matched_handleFetch hcalled hpc hcomplete htodo hinv hside

/-! ## Steps -/

theorem matched_next (h : Sim set s side l) (hwrap : s.dropped + s.kept < 2 ^ 32)
    {i₀ i : Input σ ρ} (hside : side.step F set env s i₀ = some (i, side')) {reads : Bool}
    (hs : next env set.conf i s = some (reads, t)) : Matched F set l t side' := by
  have hinv := inv_next h.inv hs
  unfold next at hs
  unfold Side.step at hside
  cases hpc : s.pc with
  | top =>
    rw [hpc] at hs
    simp only [hpc] at hside
    obtain ⟨rfl, rfl⟩ := Prod.mk.inj (Option.some.inj hside)
    obtain rfl := congrArg Prod.snd (Option.some_inj.mp hs)
    have htodo := h.inv.todo (by rw [hpc]; rfl)
    have halive : s.pc.isAborted = false := by rw [hpc]; rfl
    unfold startPass at hinv ⊢
    dsimp only at hinv ⊢
    split at hinv
    · refine (h.quiet hinv ?_ halive rfl (ne_polling rfl) rfl rfl).matched rfl
      simp [Loop.mails, htodo]
    · refine (h.quiet hinv ?_ halive rfl (ne_polling rfl) rfl rfl).matched rfl
      simp [Loop.mails, htodo]
  | matching msgp =>
    rw [hpc] at hs
    obtain rfl := congrArg Prod.snd (Option.some_inj.mp hs)
    have halive : s.pc.isAborted = false := by rw [hpc]; rfl
    cases htodo : s.todo with
    | nil =>
      simp only [hpc, htodo] at hside
      obtain ⟨rfl, rfl⟩ := Prod.mk.inj (Option.some.inj hside)
      unfold fetchMatch at hinv ⊢
      simp only [htodo] at hinv ⊢
      refine (h.quiet hinv ?_ halive rfl (ne_polling rfl) rfl rfl).matched rfl
      simp [Loop.mails, htodo]
    | cons this todo =>
      simp only [hpc, htodo] at hside
      split_ifs at hside with hdone
      · obtain ⟨⟨fails, side₁⟩, hdequeue, hresult⟩ := Option.map_eq_some_iff.mp hside
        obtain ⟨rfl, rfl⟩ := Prod.mk.inj hresult
        unfold fetchMatch at hinv ⊢
        simp only [htodo] at hinv ⊢
        change (mailMatch env set.conf.rules this s.world msgp).ret = .mailDone at hdone
        simp only [hdone] at hinv ⊢
        exact matched_fetchDequeue h halive (ne_polling (by rw [hpc]; rfl))
          (u := { s.called this msgp (mailMatch env set.conf.rules this s.world msgp) with
            todo := todo }) rfl rfl rfl htodo rfl rfl rfl
          (mailMatch_idx this s.world msgp) hdequeue hinv
      · obtain ⟨rfl, rfl⟩ := Prod.mk.inj (Option.some.inj hside)
        exact matched_fetchMatch h hpc htodo _ hdone hinv
  | delivering msgp =>
    rw [hpc] at hs
    simp only [hpc] at hside
    obtain ⟨rfl, rfl⟩ := Prod.mk.inj (Option.some.inj hside)
    obtain rfl := congrArg Prod.snd (Option.some_inj.mp hs)
    cases htodo : s.todo with
    | nil =>
      have halive : s.pc.isAborted = false := by rw [hpc]; rfl
      unfold fetchDeliver at hinv ⊢
      simp only [htodo] at hinv ⊢
      refine (h.quiet hinv ?_ halive rfl (ne_polling rfl) rfl rfl).matched rfl
      simp [Loop.mails, htodo]
    | cons this todo => exact matched_fetchDeliver h hpc htodo hinv
  | fetching =>
    rw [hpc] at hs
    simp only [hpc] at hside
    obtain rfl := congrArg Prod.snd (Option.some_inj.mp hs)
    exact matched_callFetch h hpc hwrap hinv hside
  | polling timeout =>
    rw [hpc] at hs
    simp only [hpc] at hside
    obtain ⟨rfl, rfl⟩ := Prod.mk.inj (Option.some.inj hside)
    obtain rfl := congrArg Prod.snd (Option.some_inj.mp hs)
    have halive : s.pc.isAborted = false := by rw [hpc]; rfl
    dsimp only at hinv ⊢
    split_ifs at hinv ⊢
    · have hended := h.not_ended halive fun hc hnil => h.polling timeout hpc ⟨hc, hnil⟩
      exact h.matched_fail hended hinv (List.Perm.refl _) rfl rfl
    · exact (h.quiet hinv (List.Perm.refl _) halive rfl (ne_polling rfl) rfl rfl).matched rfl
  | finished => rw [hpc] at hs; cases hs
  | aborted => rw [hpc] at hs; cases hs
  | fatal => rw [hpc] at hs; cases hs

/-- Messages that are read in between are not the fetcher's. -/
theorem Sim.reads (h : Sim set s side l) (buffer : List (Msg ρ)) :
    Sim set { s with buffer := buffer } side l :=
  { h with inv := h.inv.move rfl (List.Perm.refl _) id h.inv.finished h.inv.todo }

end

section

variable {F : Fetcher D ς α ι} {set : Settings κ δ σ α} {env : Env κ δ υ σ γ ρ}
  {c c' : Whole κ δ υ σ γ ρ D ς α} {l : Fetch.Loop D ς α}

/-- The counters, which are `u_int`, do not wrap. -/
def Whole.counts (c : Whole κ δ υ σ γ ρ D ς α) : Prop :=
  c.told.loop.dropped + c.told.loop.kept < 2 ^ 32

instance : Decidable c.counts :=
  inferInstanceAs (Decidable (c.told.loop.dropped + c.told.loop.kept < 2 ^ 32))

theorem sim_step (h : Sim set c.told.loop c.side l) (hwrap : c.counts) {a : ι ⊕ Input σ ρ}
    (hs : wholeStep F set env c a = some c') :
    ∃ l', Reach (Fetch.step F set.fetch) anyStep l l' ∧ Sim set c'.told.loop c'.side l' := by
  cases a with
  | inl i =>
    unfold wholeStep at hs
    split_ifs at hs with hdead
    obtain rfl := Option.some.inj hs
    simp only [Bool.or_eq_true, Bool.not_eq_true', Bool.and_eq_true, not_or, not_and,
      Bool.not_eq_false, Bool.not_eq_true, List.isEmpty_eq_false_iff] at hdead
    have halive : c.told.loop.pc.isAborted = false := by
      have halive := hdead.1
      cases hpc : c.told.loop.pc <;> rw [hpc] at halive <;> first | rfl | cases halive
    have hended := h.not_ended halive hdead.2
    exact ⟨{ l with data := F.input i l.data },
      .single (a := .input i) trivial (by simp [Fetch.step, hended]),
      { h with
        data := congrArg (F.input i) h.data
        counters := h.counters }⟩
  | inr i₀ =>
    obtain ⟨⟨i, side₁⟩, hside, htold⟩ := Option.bind_eq_some_iff.mp hs
    obtain ⟨told, hstep, rfl⟩ := Option.map_eq_some_iff.mp htold
    obtain ⟨t, ht, rfl⟩ := Option.map_eq_some_iff.mp hstep
    obtain ⟨⟨reads, u⟩, hnext, hu⟩ := Option.bind_eq_some_iff.mp ht
    obtain ⟨l', hreach, hsim⟩ := matched_next h hwrap hside hnext
    dsimp only at hu
    split_ifs at hu
    obtain rfl := Option.some_inj.mp hu
    exact ⟨l', hreach, hsim.reads _⟩

theorem sim_start (F : Fetcher D ς α ι) (set : Settings κ δ σ α) (flags : Fetch.FetchFlags) (d : D)
    (world : γ) :
    Sim set (wholeStart (κ := κ) (δ := δ) (υ := υ) (σ := σ) (ρ := ρ) F flags d world).told.loop
      (wholeStart (κ := κ) (δ := δ) (υ := υ) (σ := σ) (ρ := ρ) F flags d world).side
      (Fetch.start F flags d) where
  inv := inv_init _ _
  data := rfl
  queue := rfl
  ids := .nil
  aborted := rfl
  complete := rfl
  fctx _ _ := rfl
  counters _ _ := rfl
  polling := nofun

/-- What the loop does with its fetcher, the fetch loop does too, in which any mail may be dequeued
at any time and with any decision. -/
theorem fetch_refines (F : Fetcher D ς α ι) (set : Settings κ δ σ α) (env : Env κ δ υ σ γ ρ)
    (flags : FetchFlags) (d : D) (world : γ)
    (h : Reach (wholeStep F set env) (fun c _ => c.counts) (wholeStart F flags d world) c) :
    ∃ l, Reach (Fetch.step F set.fetch) anyStep (Fetch.start F flags d) l ∧
      Sim set c.told.loop c.side l :=
  h.simulated (R := fun c l => Sim set c.told.loop c.side l) (sim_start F set flags d world)
    fun _ _ _ _ hsim hwrap hs => sim_step hsim hwrap hs

/-- A fetcher that has some mails to hand out, and counts those that are dropped. -/
def handOut : Fetcher (ℕ × ℕ) Unit Unit Unit where
  first := ()
  state fctx d :=
    match d with
    | (0, _) => (.exit, fctx, d)
    | (n + 1, dropped) => (.mail, { fctx with mail := { data := ['x'] } }, (n, dropped))
  commit m d := (.again, m, if m.decision = .drop then (d.1, d.2 + 1) else d)
  abort d := d
  auxfree _ d := d
  input _ d := (d.1 + 1, d.2)

/-- Every mail is dropped. -/
def dropAll : Settings Unit Unit Unit Unit where
  fetch := {}
  rules := { rules := [], implAct := some .drop }
  timeout := 900
  tags _ := ()
  fillIn m := m

/-- As long as the counters do not wrap. -/
def handedOut (n : ℕ) : Option (Whole Unit Unit Unit Unit Unit Unit (ℕ × ℕ) Unit Unit) :=
  exec (guarded (wholeStep handOut dropAll idleEnv) fun c _ => c.counts)
    (wholeStart handOut {} (2, 0) ()) (List.replicate n (.inr {}))

theorem fetch_refines_handOut : (handedOut 13).map (fun c => c.side.data) = some (0, 2) ∧
    ∀ c, handedOut 13 = some c →
      ∃ l, Reach (Fetch.step handOut dropAll.fetch) anyStep (Fetch.start handOut {} (2, 0)) l ∧
        Sim dropAll c.told.loop c.side l :=
  ⟨by decide, fun _ hc => fetch_refines handOut dropAll idleEnv {} (2, 0) ()
    (reach_of_execGuarded (fun _ _ => of_decide_eq_true) hc)⟩

end

end Fdm.Account
