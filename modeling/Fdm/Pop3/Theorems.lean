import Fdm.Pop3.Session

/-!
# What a POP3 fetch guarantees

* `cache_never_ahead`: the cache file has the UIDs it should, each time it is written;
* `numbers_of_session`: a message number is used in its own session only;
* `conservation`: every mail selected is in one place, and the fetch ends when all are done.

The last two need the condition of `Fdm.Pop3.Session`; `stale_number` and `list_when_done`
are the run that goes wrong without it.
-/

namespace Fdm.Pop3

open Fdm.Fetch Lib.Scanf Lib.KeyedTree

/-! ## Sample dialogues -/

/-- `"+OK"`. -/
def srvOk : Act Input := srv ['+', 'O', 'K']

/-- Log in to a maildrop of two messages, `a` and `b`, and fetch the first. -/
def fetchFirst : List (Act Input) :=
  [.pass, .pass, srvOk, srvOk, srvOk, srv ['+', 'O', 'K', ' ', '2', ' ', '9'], srvOk,
    srv ['1', ' ', 'a'], srv ['2', ' ', 'b'], srv ['.'],
    srv ['+', 'O', 'K', ' ', '1', ' ', '9'], srvOk, srv ['x'], srv ['.'],
    .pass, .pass, .pass, .pass, .pass, .pass, .pass, .pass, .pass, .pass, .pass]

/-- Drop it, have the drop acknowledged, and reconnect for a purge. -/
def dropAndReconnect : List (Act Input) :=
  [.dequeue 0 .drop, .pass, srvOk, .pass, .pass, srvOk, .pass, .pass, srvOk, srvOk, srvOk,
    .pass, .pass, .pass]

/-- An answer to `STAT` that shows an empty maildrop. -/
def emptyMaildrop : List (Act Input) :=
  [srv ['+', 'O', 'K', ' ', '0', ' ', '0'], .pass]

/-- `purge-after 1`, all mails, UIDL. -/
def purgeConf : Conf := { purgeAfter := 1 }

/-- The start of the sample runs. -/
def sampleBegin : Loop Env State FetchPop3Mail :=
  begin purgeConf false true .all true false [] [] none

/-- The guard, as a test for the sample runs. -/
def meetsStatGuard (l : Loop Env State FetchPop3Mail) (_ : Act Input) : Bool :=
  l.fctx.state ≠ .first || !unlistedStat l.data || l.data.data.wantq = []

theorem guard_of_meetsStatGuard (l : Loop Env State FetchPop3Mail) (a : Act Input)
    (h : meetsStatGuard l a = true) : stepGuard purgeConf statGuard noCommitGuard l a := by
  cases a with
  | pass =>
    intro _ hfirst hstat
    simpa [meetsStatGuard, hfirst, hstat] using h
  | _ => simp [stepGuard, noCommitGuard]

theorem fetchFirst_runs :
    (Lib.Runs.exec (Lib.Runs.guarded (step (fetcher purgeConf) purgeConf) meetsStatGuard)
      sampleBegin fetchFirst).isSome = true := by decide +kernel

/-- The run into the empty maildrop. -/
def staleRun : List (Act Input) := fetchFirst ++ dropAndReconnect ++ emptyMaildrop

theorem staleRun_runs :
    (Lib.Runs.exec (step (fetcher purgeConf) purgeConf) sampleBegin
      (staleRun ++ [.pass])).isSome = true := by decide +kernel

variable {conf : Conf} {poll path : Bool} {only : FetchOnly} {uidl apop : Bool}
  {user pass : List Char} {disk : Option (List Char)} {l : Loop Env State FetchPop3Mail}

/-! ## The cache file -/

/-- Each time `pop3_save` writes the cache, its UIDs are exactly those of the old cache
that the first listing had, those of the mails kept, and those of the mails dropped whose
DELE has been acknowledged; and `pop3_load` reads the same set back. The file on disk is
always the last one written. -/
theorem cache_never_ahead
    (h : Lib.Runs.Reach (step (fetcher conf) conf) Lib.Runs.anyStep
      (begin conf poll path only true apop user pass disk) l) :
    (∀ s ∈ l.data.hist.saves, SaveOk (oldCache path disk) s) ∧
      l.data.disk = (l.data.hist.saves.getLast?.map Save.file).or disk := by
  have hdead := (holds_base h).dead
  exact ⟨hdead.right, hdead.last⟩

/-- The DELE of the first mail of the sample dialogue has been acknowledged, and the second one is
fetched behind the purge. -/
def fetchSecond : List (Act Input) :=
  fetchFirst ++ dropAndReconnect ++
    [srv ['+', 'O', 'K', ' ', '1', ' ', '9'], srvOk, srv ['1', ' ', 'b'], srv ['.'],
      srv ['+', 'O', 'K', ' ', '1', ' ', '9'], srvOk, srv ['y'], srv ['.'],
      .pass, .pass, .pass, .pass, .pass, .pass, .pass, .pass]

theorem keepSecond_runs :
    (Lib.Runs.exec (step (fetcher purgeConf) purgeConf) sampleBegin
      (fetchSecond ++ [.dequeue 0 .keep])).isSome = true := by decide +kernel

/-- The cache has been written twice: it has the mail dropped, and then the mail kept as well. -/
theorem cache_never_ahead_keepSecond :
    ∃ l : Loop Env State FetchPop3Mail,
      l.data.hist.saves.map Save.file =
          [['1', ' ', 'a', '\n'], ['1', ' ', 'a', '\n', '1', ' ', 'b', '\n']] ∧
        (∀ s ∈ l.data.hist.saves, SaveOk (oldCache true none) s) ∧
          l.data.disk = (l.data.hist.saves.getLast?.map Save.file).or none :=
  ⟨_, by decide +kernel, cache_never_ahead (Lib.Runs.reach_get keepSecond_runs)⟩

/-! ## Numbers never cross sessions -/

/-- The numbers of a state are right. With UIDL every number sent is the one that the
listing of its session gave to the mail; and when `pop3_state_next` runs, the want queue
has every message of the session at most once and no other. -/
structure NumbersOk (uidl : Bool) (l : Loop Env State FetchPop3Mail) : Prop where
  sent : uidl = true → ∀ x ∈ l.data.hist.sent, ∀ n, x.cmd.number = some n →
    ∃ aux, x.aux = some aux ∧ aux.idx = n ∧ aux ∈ x.listing
  nodup : l.Running → l.fctx.state = .next →
    (l.data.data.wantq.map FetchPop3Mail.idx).Nodup
  range : l.Running → l.fctx.state = .next →
    ∀ aux ∈ l.data.data.wantq, 1 ≤ aux.idx ∧ aux.idx ≤ l.data.data.num
  listed : l.Running → l.fctx.state = .next → uidl = true →
    ∀ aux ∈ l.data.data.wantq, aux ∈ l.data.hist.listing

/-- In every run whose answers to `STAT` meet the condition, no number is used in another
session than its own. -/
theorem numbers_of_session
    (h : Lib.Runs.Reach (step (fetcher conf) conf) (stepGuard conf statGuard noCommitGuard)
      (begin conf poll path only uidl apop user pass disk) l) : NumbersOk uidl l := by
  have hinv := holds_session h
  have hsession : l.Running → l.fctx.state = .next →
      InSession uidl l.data.data.wantq (outstanding l.queue l.data) l.data.data.num
        l.data.hist.listing := by
    intro hrun hnext
    have htalk := (hinv.run hrun).2.talk
    rwa [hnext] at htalk
  constructor
  · intro hu x hx n hn
    obtain ⟨aux, haux, hidx, hlisted⟩ := hinv.dead x hx n hn
    exact ⟨aux, haux, hidx, hlisted hu⟩
  · intro hrun hnext
    exact (hsession hrun hnext).nodup
  · intro hrun hnext
    exact (hsession hrun hnext).range
  · intro hrun hnext hu aux haux
    exact (hsession hrun hnext).listed hu aux (List.mem_append_left _ haux)

theorem numbers_of_session_fetchFirst :
    ∃ l, l.data.hist.sent.length = 6 ∧ NumbersOk true l :=
  ⟨_, by decide +kernel, numbers_of_session (Lib.Runs.reach_getGuarded
    guard_of_meetsStatGuard fetchFirst_runs)⟩

/-- The session after the purge lists nothing, but the number of `b` from the session
before is used in it. -/
theorem stale_number :
    ∃ l, Lib.Runs.Reach (step (fetcher purgeConf) purgeConf) Lib.Runs.anyStep sampleBegin l ∧
      ¬ NumbersOk true l := by
  refine ⟨_, Lib.Runs.reach_get staleRun_runs, fun h => ?_⟩
  have hsent := h.sent rfl ⟨.list 2, some ⟨['b'], 2⟩, []⟩ (by decide +kernel) 2 rfl
  obtain ⟨aux, -, -, hlisted⟩ := hsent
  cases hlisted

/-! ## Conservation -/

/-- No UID is in two places, or twice in one. -/
theorem Ledger.count_places_le {q : List (Mail FetchPop3Mail)} {e : Env} (h : Ledger q e)
    (u : List Char) : (places q e).count u ≤ 1 := by
  obtain ⟨gone, -, hperm⟩ := h.perm
  have hcount := hperm.count_eq u
  have hle := List.nodup_iff_count_le_one.mp h.nodup u
  rw [List.count_append] at hcount
  omega

/-- A selected mail that has not vanished is in one place. -/
theorem Ledger.count_places {q : List (Mail FetchPop3Mail)} {e : Env} (h : Ledger q e)
    {u : List Char} (hu : u ∈ e.hist.selected) (hhere : ¬ Vanished e u) :
    (places q e).count u = 1 := by
  obtain ⟨gone, hgone, hperm⟩ := h.perm
  have hmem := hperm.symm.subset hu
  rcases List.mem_append.mp hmem with hmem | hmem
  · have := List.count_pos_iff.mpr hmem
    have := h.count_places_le u
    omega
  · exact absurd (hgone u hmem) hhere

/-- What is wanted or fetched is not committed. -/
theorem Ledger.not_committed {q : List (Mail FetchPop3Mail)} {e : Env} (h : Ledger q e)
    {u : List Char} (hu : u ∈ (e.data.wantq ++ fetched q).map FetchPop3Mail.uid) :
    u ∉ e.hist.kept ∧ u ∉ e.hist.dropped := by
  have hle := h.count_places_le u
  have hpos := List.count_pos_iff.mpr hu
  simp only [places, List.map_append, List.count_append] at hle hpos
  rw [h.dropped, List.mem_append, not_or]
  refine ⟨fun hmem => ?_, fun hmem => ?_, fun hmem => ?_⟩
  · have := List.count_pos_iff.mpr hmem
    omega
  · have := List.count_pos_iff.mpr hmem
    omega
  · have := List.count_pos_iff.mpr hmem
    omega

/-- What waits for its DELE has not had it acknowledged. -/
theorem Ledger.not_acked {q : List (Mail FetchPop3Mail)} {e : Env} (h : Ledger q e)
    {aux : FetchPop3Mail} (haux : aux ∈ e.data.dropq) : aux.uid ∉ e.hist.acked := by
  intro hmem
  have hle := h.count_places_le aux.uid
  have hpos := List.count_pos_iff.mpr (List.mem_map_of_mem (f := FetchPop3Mail.uid) haux)
  have := List.count_pos_iff.mpr hmem
  simp only [places, List.count_append] at hle
  omega

/-- Every selected mail that has not vanished is committed, and every drop has had its
DELE acknowledged. -/
def AllDone (e : Env) : Prop :=
  (∀ u ∈ e.hist.selected, ¬ Vanished e u → u ∈ e.hist.kept ∨ u ∈ e.hist.dropped) ∧
    ∀ u ∈ e.hist.dropped, u ∈ e.hist.acked

instance (e : Env) : Decidable (AllDone e) :=
  inferInstanceAs (Decidable ((∀ u ∈ e.hist.selected, ¬ Vanished e u →
    u ∈ e.hist.kept ∨ u ∈ e.hist.dropped) ∧ ∀ u ∈ e.hist.dropped, u ∈ e.hist.acked))

/-- A call has sent the `QUIT` that ends the fetch. -/
def EndsFetch (e : Env) (r : Result) : Prop :=
  r.2.1.state = .quit ∧ r.2.2.hist.sent = e.hist.sent ++ [⟨.quit, none, e.hist.listing⟩]

theorem endsFetch_putln {cmd : Cmd} {aux : Option FetchPop3Mail} {s : State} {fctx : Ctx}
    {e : Env} (hs : s ≠ .quit) (hnext : fctx.state ≠ .quit) :
    ¬ EndsFetch e (putln cmd aux s fctx e) := by
  rintro ⟨hstate, -⟩
  unfold putln at hstate
  split_ifs at hstate
  · exact hnext hstate
  · exact hs hstate

/-- `pop3_state_next` ends the fetch when everything is done, and only then. -/
theorem endsFetch_iff {q : List (Mail FetchPop3Mail)} {m : Mail FetchPop3Mail} {e : Env}
    {fctx : Ctx} (hs : fctx.state = .next) (hfault : e.fault = false)
    (hb : Base path disk q .next m e) (hf : Fresh true q .next e) :
    EndsFetch e (stateNext fctx e) ↔ AllDone e := by
  have hnext : fctx.state ≠ .quit := by simp [hs]
  have hblock : ¬ EndsFetch e (.block, fctx, e) := fun h => hnext h.1
  -- anything wanted or fetched keeps the fetch from being done
  have hopen : ∀ aux ∈ e.data.wantq ++ fetched q, ¬ AllDone e := by
    intro aux haux hdone
    have hmem := List.mem_map_of_mem (f := FetchPop3Mail.uid) haux
    obtain ⟨hkept, hdropped⟩ := hb.ledger.not_committed hmem
    have hsel : aux.uid ∈ e.hist.selected := hb.ledger.mem_selected (by
      simp only [places, List.map_append, List.mem_append] at hmem ⊢
      tauto)
    have hhere : ¬ Vanished e aux.uid := by
      rintro ⟨L, hL, hnot⟩
      exact hnot (hf.present rfl aux.uid hmem L hL)
    rcases hdone.1 aux.uid hsel hhere with h | h
    · exact hkept h
    · exact hdropped h
  have htotal := hb.shape.total
  unfold stateNext
  split
  · next aux dropq hdrop =>
    refine iff_of_false (endsFetch_putln (by simp) hnext) fun hdone => ?_
    have haux : aux ∈ e.data.dropq := by simp [hdrop]
    refine hb.ledger.not_acked haux (hdone.2 aux.uid ?_)
    rw [hb.ledger.dropped]
    exact List.mem_append_right _ (List.mem_map_of_mem haux)
  · next hdrop =>
    split
    · next hwant =>
      simp only [hwant, hdrop, List.length_nil] at htotal
      split_ifs with hcommitted
      · refine iff_of_false hblock ?_
        -- the count is short because a mail is still on its way
        obtain ⟨x, hx⟩ := List.exists_mem_of_ne_nil q fun hq => hcommitted (by
          simp only [hq, List.length_nil] at htotal
          omega)
        obtain ⟨aux, haux⟩ := Option.isSome_iff_exists.mp (hb.shape.queued x hx)
        exact hopen aux (List.mem_append_right _ (List.mem_filterMap.mpr ⟨x, hx, haux⟩))
      · have hq : q = [] := List.eq_nil_of_length_eq_zero (by omega)
        refine iff_of_true ⟨?_, ?_⟩ ⟨fun u hu hhere => ?_, fun u hu => ?_⟩
        · simp [putln, hfault]
        · simp [putln, hfault]
        · have hone := hb.ledger.count_places hu hhere
          have hmem := List.count_pos_iff.mp (by omega : 0 < (places q e).count u)
          simp only [places, hwant, hdrop, hq, fetched, List.filterMap_nil, List.map_nil,
            List.nil_append, List.mem_append] at hmem
          rw [hb.ledger.dropped, List.mem_append]
          tauto
        · rw [hb.ledger.dropped, hdrop, List.map_nil, List.append_nil] at hu
          exact hu
    · next aux rest hwant =>
      have hnot := hopen aux (by simp [hwant])
      split_ifs
      · exact iff_of_false (endsFetch_putln (by simp) hnext) hnot
      · exact iff_of_false hblock hnot
      · exact iff_of_false (endsFetch_putln (by simp) hnext) hnot

/-- Where the mails of a state are. The counters agree with the queues, and every selected
mail that has not vanished is in exactly one place. -/
structure Conserved (l : Loop Env State FetchPop3Mail) : Prop where
  total : l.data.data.total = l.data.data.wantq.length + l.queue.length
    + l.data.data.dropq.length + l.data.data.committed
  places : ∀ u ∈ l.data.hist.selected, ¬ Vanished l.data u →
    (places l.queue l.data).count u = 1

/-- When `pop3_state_next` runs, it ends the fetch exactly when all is done. -/
def EndsWhenDone (l : Loop Env State FetchPop3Mail) : Prop :=
  l.fctx.state = .next → l.data.fault = false → ∀ f : FetchFlags,
    (EndsFetch l.data (stateNext ⟨.next, f, l.fctx.mail⟩ l.data) ↔ AllDone l.data)

/-- With UIDL no mail is lost or counted twice in any run; and in every run whose answers
to `STAT` meet the condition, the fetch ends exactly when every mail is done. -/
theorem conservation
    (h : Lib.Runs.Reach (step (fetcher conf) conf) Lib.Runs.anyStep
      (begin conf poll path only true apop user pass disk) l) (hrun : l.Running) :
    Conserved l ∧
      (Lib.Runs.Reach (step (fetcher conf) conf) (stepGuard conf statGuard noCommitGuard)
        (begin conf poll path only true apop user pass disk) l → EndsWhenDone l) := by
  have hb : Base path disk l.queue l.fctx.state.phase l.fctx.mail l.data :=
    (holds_base h).run hrun
  refine ⟨⟨hb.shape.total, fun u hu hhere => hb.ledger.count_places hu hhere⟩, ?_⟩
  intro hguarded hs hfault f
  have hf : Fresh true l.queue l.fctx.state l.data := ((holds_session hguarded).run hrun).2
  rw [hs] at hb hf
  exact endsFetch_iff rfl hfault hb hf

theorem conservation_fetchFirst :
    ∃ l, l.data.data.total = 2 ∧ l.queue.length = 1 ∧ Conserved l ∧ EndsWhenDone l := by
  have hguarded := Lib.Runs.reach_getGuarded guard_of_meetsStatGuard fetchFirst_runs
  have hall := conservation (hguarded.mono fun _ _ _ => trivial)
    ⟨by decide +kernel, by decide +kernel⟩
  exact ⟨_, by decide +kernel, by decide +kernel, hall.1, hall.2 hguarded⟩

theorem emptyMaildrop_runs :
    (Lib.Runs.exec (step (fetcher purgeConf) purgeConf) sampleBegin staleRun).isSome = true := by
  decide +kernel

/-- In the empty maildrop `b` has vanished and everything else is done, but
`pop3_state_next` asks for `b` and does not end the fetch. -/
theorem list_when_done :
    ∃ l, Lib.Runs.Reach (step (fetcher purgeConf) purgeConf) Lib.Runs.anyStep sampleBegin l ∧
      l.Running ∧ ¬ EndsWhenDone l := by
  refine ⟨_, Lib.Runs.reach_get emptyMaildrop_runs, ⟨by decide +kernel, by decide +kernel⟩,
    fun h => ?_⟩
  have hends := (h (by decide +kernel) (by decide +kernel) {}).mpr (by decide +kernel)
  exact absurd hends.1 (by decide +kernel)

end Fdm.Pop3
