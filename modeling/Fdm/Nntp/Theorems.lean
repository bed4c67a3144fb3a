import Fdm.Nntp.Invariant

/-!
# The NNTP cache file

* `cache_behind_commits`: the cache file never has an article in it that is not committed, in
  the runs that commit one article at a time (`loneGuard`); `ahead_of_delivery` is one that
  does not;
* `cache_complete`: at the end the cache file has every group as it should, in the runs that
  leave nothing for after the end of the session (`quitGuard`); `emptied_by_quit` is one that
  does not.
-/

namespace Fdm.Nntp

open Fdm.Fetch Lib.Scanf

variable {conf : Conf} {poll : Bool} {user pass : Option (List Char)} {names : List (List Char)}
  {old : Option (List Char)} {q : List (Mail ℕ)} {x : Mail ℕ} {c : Ctx} {e : Env}
  {l : Loop Env State ℕ}

/-! ## The cache file and the articles not committed -/

/-- Every article announced with a number up to the one saved for its group is committed,
or the server would not give it out. -/
def SaveOk (s : Save) : Prop :=
  ∀ k a g, s.seen[k]? = some a → s.groups[a.group]? = some g → a.n ≤ g.last →
    k ∈ s.committed ∨ k ∈ s.refused

/-- The cache file was never ahead when it was written, and is the last one written. -/
structure NeverAhead (old : Option (List Char)) (e : Env) : Prop where
  saves : ∀ s ∈ e.hist.saves, SaveOk s ∧ s.file = saveFile s.groups
  last : e.disk = (e.hist.saves.getLast?.map Save.file).or old

/-- When a mail is committed, no other article is queued or being fetched. -/
def loneGuard (q : List (Mail ℕ)) (s : Option State) (_ : Env) (_ : Mail ℕ) : Prop :=
  q.length = 1 ∧ s ≠ some .article ∧ s ≠ some .line

/-- The text of a mail ends in the lines that have arrived, and the mail is to be dropped at
once for its size. -/
def endsOversize (conf : Conf) (m : Mail ℕ) (e : Env) : Bool :=
  match readLines conf e.fault e.inbuf m e.data.flushing with
  | .ended _ m _ => conf.delBig && decide (conf.maxSize < m.size)
  | _ => false

/-- The same for a mail that is committed at once because it is too big. -/
def loneBigGuard (conf : Conf) (q : List (Mail ℕ)) (s : State) (m : Mail ℕ) (e : Env) : Prop :=
  s = .line → endsOversize conf m e = true → q = []

/-- What a call does not touch: the cache file. Nor does it hand out a mail. -/
structure Quiet (e : Env) (r : Result) : Prop where
  code : r.1 ≠ .mail
  disk : r.2.2.disk = e.disk
  saves : r.2.2.hist.saves = e.hist.saves

theorem quiet_checkElse {bad : FetchCode} {codes : List ℕ} {k : List Char → ℕ → Env → Result}
    (hbad : bad ≠ .mail) (hk : ∀ line code rest, Quiet e (k line code { e with inbuf := rest })) :
    Quiet e (checkElse bad codes c e k) :=
  checkElse_cases (P := Quiet e) (fun _ => ⟨nofun, rfl, rfl⟩) (fun _ => ⟨nofun, rfl, rfl⟩)
    (fun _ => ⟨hbad, rfl, rfl⟩) fun line code rest _ _ => hk line code rest

theorem quiet_check {codes : List ℕ} {k : List Char → ℕ → Env → Result}
    (hk : ∀ line code rest, Quiet e (k line code { e with inbuf := rest })) :
    Quiet e (check codes c e k) := quiet_checkElse nofun hk

theorem quiet_withGroup {k : FetchNntpGroup → Result} (hk : ∀ g, Quiet e (k g)) :
    Quiet e (withGroup c e k) := by
  unfold withGroup
  split
  · exact ⟨nofun, rfl, rfl⟩
  · exact hk _

/-- Only `fetch_nntp_state_line` hands out mails, and no state function writes the cache
file. -/
theorem quiet_state (hline : c.state ≠ .line) : Quiet e (state conf c e) := by
  unfold state
  cases hc : c.state with
  | connect =>
    dsimp only
    unfold stateConnect
    split_ifs
    · exact ⟨nofun, rfl, rfl⟩
    · split
      · exact ⟨nofun, rfl, rfl⟩
      · exact ⟨nofun, rfl, rfl⟩
      · split
        · exact ⟨nofun, rfl, rfl⟩
        · exact ⟨nofun, rfl, rfl⟩
  | connected =>
    refine quiet_check fun _ _ _ => ?_
    dsimp only
    split
    · exact ⟨nofun, rfl, rfl⟩
    · exact ⟨nofun, rfl, rfl⟩
  | auth1 => exact quiet_check fun _ _ _ => ⟨nofun, rfl, rfl⟩
  | auth2 => exact quiet_checkElse nofun fun _ _ _ => ⟨nofun, rfl, rfl⟩
  | switch =>
    dsimp only
    unfold stateSwitch
    split
    · exact ⟨nofun, rfl, rfl⟩
    · exact ⟨nofun, rfl, rfl⟩
  | group => exact quiet_withGroup fun _ => ⟨nofun, rfl, rfl⟩
  | reset => exact quiet_withGroup fun _ => ⟨nofun, rfl, rfl⟩
  | stat =>
    refine quiet_withGroup fun _ => quiet_check fun _ _ _ => ?_
    split
    · split_ifs
      · exact ⟨nofun, rfl, rfl⟩
      · exact ⟨nofun, rfl, rfl⟩
      · exact ⟨nofun, rfl, rfl⟩
    · exact ⟨nofun, rfl, rfl⟩
    · exact ⟨nofun, rfl, rfl⟩
  | wait =>
    refine quiet_withGroup fun _ => quiet_check fun _ _ _ => ?_
    split_ifs
    · split
      · exact ⟨nofun, rfl, rfl⟩
      · split_ifs
        · exact ⟨nofun, rfl, rfl⟩
        · exact ⟨nofun, rfl, rfl⟩
        · exact ⟨nofun, rfl, rfl⟩
        · exact ⟨nofun, rfl, rfl⟩
    · exact ⟨nofun, rfl, rfl⟩
  | next =>
    refine quiet_withGroup fun _ => quiet_check fun _ _ _ => ?_
    split_ifs
    · exact ⟨nofun, rfl, rfl⟩
    · split
      · exact ⟨nofun, rfl, rfl⟩
      · exact ⟨nofun, rfl, rfl⟩
  | article =>
    refine quiet_withGroup fun _ => quiet_check fun _ _ _ => ?_
    split_ifs
    · exact ⟨nofun, rfl, rfl⟩
    · exact ⟨nofun, rfl, rfl⟩
    · exact ⟨nofun, rfl, rfl⟩
  | line => exact absurd hc hline
  | quit => exact quiet_check fun _ _ _ => ⟨nofun, rfl, rfl⟩

/-- The cache file is written, and is not ahead. -/
theorem NeverAhead.commit (h : NeverAhead old e) {x : Mail ℕ} (dec : Decision)
    (hsave : SaveOk ⟨saveFile e.data.groups, e.data.groups, e.hist.seen,
      e.hist.committed ++ x.auxdata.toList, e.hist.refused⟩) :
    Committed (fetcher conf) (NeverAhead old) (NeverAhead old)
      (commit { x with decision := dec } e) := by
  rw [commit_eq]
  by_cases hfault : e.fault
  · rw [if_pos hfault]
    exact h
  · rw [if_neg hfault]
    refine ⟨fun s hs => ?_, by simp [saved, fetcher]⟩
    rcases List.mem_append.mp hs with hs | hs
    · exact h.saves s hs
    · rw [List.mem_singleton.mp hs]
      exact ⟨hsave, rfl⟩

/-- When the only mail is committed and none is being fetched, every article announced is
dealt with. -/
theorem Sound.saveOk (hs : Sound names old [x] c (books e)) (hread : c.state.reading = false) :
    SaveOk ⟨saveFile e.data.groups, e.data.groups, e.hist.seen,
      e.hist.committed ++ x.auxdata.toList, e.hist.refused⟩ := by
  intro k a g hk _ _
  have hp : Places ([x].eraseIdx 0) c.state c.mail (books (saved x e)) := hs.places.save rfl
  obtain ⟨hlt, -⟩ := List.getElem?_eq_some_iff.mp hk
  rcases hp.all k (Nat.zero_le k) hlt with hset | hq | ⟨htrue, -⟩
  · exact List.mem_append.mp hset
  · cases hq
  · rw [hread] at htrue
    exact absurd htrue Bool.false_ne_true

theorem Quiet.neverAhead {r : Result} (hquiet : Quiet e r) (h : NeverAhead old e) :
    NeverAhead old r.2.2 where
  saves := by
    rw [hquiet.saves]
    exact h.saves
  last := by
    rw [hquiet.disk, hquiet.saves]
    exact h.last

/-- The only queued mail. -/
theorem eq_singleton_of_length {n : ℕ} (hlen : q.length = 1) (hx : q[n]? = some x) : q = [x] := by
  obtain ⟨y, rfl⟩ := List.length_eq_one_iff.mp hlen
  obtain ⟨hn, hy⟩ := List.getElem?_eq_some_iff.mp hx
  obtain rfl : n = 0 := by simpa using hn
  rw [← hy]
  rfl

/-- A call keeps the cache file behind the commits, if it commits an oversize mail only
when no other is queued. -/
theorem outcome_neverAhead (hs : Sound names old q c (books e)) (h : NeverAhead old e)
    (hguard : loneBigGuard conf q c.state c.mail e) :
    Outcome conf (fetcher conf) (fun q c e => Sound names old q c (books e) ∧ NeverAhead old e)
      (fun _ e => e.data.groups = [] ∧ NeverAhead old e) (NeverAhead old) q (state conf c e) := by
  have hgood : Good conf names old (fun _ e => e.data.groups = []) q (state conf c e) :=
    good_state hs fun _ _ _ _ => rfl
  by_cases hline : c.state = .line
  · have hstate : state conf c e = stateLine conf c e := by rw [state, hline]
    rw [hstate] at hgood ⊢
    unfold stateLine at hgood ⊢
    rcases hr : readLines conf e.fault e.inbuf c.mail e.data.flushing with
      ⟨rest, m, flushing⟩ | ⟨m⟩ | ⟨rest, m, flushing⟩
    · rw [hr] at hgood
      exact hgood.keep ⟨h.saves, h.last⟩ nofun
    · exact h
    · rw [hr] at hgood
      refine hgood.keep ⟨h.saves, h.last⟩ fun _ hsize hdel => ?_
      -- the oversize mail is the only one
      have hnil : q = [] := by
        refine hguard hline ?_
        rw [endsOversize, hr]
        simpa using ⟨hdel, hsize⟩
      have hqueue := sound_lineEnded hline hs hr (rfl : m.auxdata = m.auxdata)
      rw [hnil, List.nil_append] at hqueue
      have hkeep : NeverAhead old
          { e with
            inbuf := rest
            data := { e.data with flushing := flushing }
            hist := { e.hist with sent := e.hist.sent ++ [.next] } } := ⟨h.saves, h.last⟩
      exact hkeep.commit .drop (hqueue.saveOk rfl)
  · have hquiet : Quiet e (state conf c e) := quiet_state hline
    exact hgood.keep (hquiet.neverAhead h) fun hmail => absurd hmail hquiet.code

/-- The cache file, as an invariant of the runs that commit one article at a time. -/
def ahead (conf : Conf) (names : List (List Char)) (old : Option (List Char)) :
    LoopInv (fetcher conf) conf (loneBigGuard conf) loneGuard where
  run q c e := Sound names old q c (books e) ∧ NeverAhead old e
  done _ e := e.data.groups = [] ∧ NeverAhead old e
  dead := NeverAhead old
  run_dead h := h.2
  done_dead h := h.2
  dead_abort h := ⟨h.saves, h.last⟩
  dead_auxfree h := h
  run_flags _ _ h := ⟨⟨h.1.start, h.1.places, h.1.table⟩, h.2⟩
  run_input i h := by cases i <;> exact ⟨h.1, ⟨h.2.saves, h.2.last⟩⟩
  done_input i h := by cases i <;> exact ⟨h.1, ⟨h.2.saves, h.2.last⟩⟩
  state h hguard _ := outcome_neverAhead h.1 h.2 hguard
  commit {q c e n x} dec h hx hguard := by
    obtain ⟨hlen, harticle, hline⟩ := hguard
    have hread : c.state.reading = false := by
      cases hc : c.state <;> simp_all [State.reading]
    have hs := h.1
    rw [eq_singleton_of_length hlen hx] at hs
    exact (h.1.commit dec hx).and (h.2.commit dec (hs.saveOk hread))
  commit_done {q e n x} dec h hx _ := by
    -- the groups are gone, and the file has no entry at all
    have hsave : SaveOk ⟨saveFile e.data.groups, e.data.groups, e.hist.seen,
        e.hist.committed ++ x.auxdata.toList, e.hist.refused⟩ := by
      intro k a g _ hg _
      rw [show e.data.groups = [] from h.1] at hg
      exact absurd hg (by simp)
    have hgroups : Committed (fetcher conf) (fun e => e.data.groups = []) (fun _ => True)
        (commit { x with decision := dec } e) := by
      rw [commit_eq]
      by_cases hfault : e.fault
      · rw [if_pos hfault]
        exact trivial
      · rw [if_neg hfault]
        exact h.1
    exact hgroups.and (h.2.commit dec hsave)

/-- In every run that commits one article at a time, the cache file is never ahead of the
commits. -/
theorem cache_behind_commits
    (h : Lib.Runs.Reach (step (fetcher conf) conf)
      (stepGuard conf (loneBigGuard conf) loneGuard) (begin conf poll user pass names old) l) :
    NeverAhead old l.data := by
  have hinit : Sound names old [] { state := .connect, flags := { poll := poll } }
      (books { data := { user := user, pass := pass, names := names }, disk := old, hist := {} }) :=
    sound_begin _ _ rfl rfl rfl
  exact (LoopInv.holds_reach (I := ahead conf names old) ⟨hinit, by simp, rfl⟩ h).dead

/-! ## The cache file at the end -/

/-- When the reply to `QUIT` is read, no mail is queued, and no article has been refused
since the cache file was last written. -/
def quitGuard (q : List (Mail ℕ)) (s : State) (_ : Mail ℕ) (e : Env) : Prop :=
  s = .quit → ∀ line rest, nextReply e.inbuf = .code line 205 rest →
    q = [] ∧ (books e).refusedSince = []

/-- The entry of a group at the end: the last article announced, or what was loaded if there
was none and the group has not been reset. Groups that are not configured are as before. -/
structure Recorded (names : List (List Char)) (seen : List Article) (resets : List ℕ) (i : ℕ)
    (g₀ g : FetchNntpGroup) : Prop where
  name : g.name = g₀.name
  fetched : ∀ a, lastOf i seen = some a → g.last = a.n ∧ g.id = some a.id
  unfetched : lastOf i seen = none → i ∉ resets → g.last = g₀.last ∧ g.id = g₀.id
  other : names.length ≤ i → g.last = g₀.last ∧ g.id = g₀.id

/-- The cache file is the one `fetch_nntp_save` writes for groups that are all as they
should be, or has never been written and needs no change. -/
def CacheComplete (names : List (List Char)) (old : Option (List Char)) (e : Env) : Prop :=
  ∃ loaded groups, load names old = some loaded ∧ groups.length = loaded.length ∧
    (∀ i g₀ g, loaded[i]? = some g₀ → groups[i]? = some g →
      Recorded names e.hist.seen e.hist.resets i g₀ g) ∧
    (e.disk = some (saveFile groups) ∨ e.disk = old ∧ groups = loaded)

/-- The entries are right when nothing outside the configured groups has been touched. -/
theorem Right.recorded {loaded groups : List FetchNntpGroup} {seen : List Article}
    {resets : List ℕ} (h : Right loaded groups seen resets)
    (hseen : ∀ a ∈ seen, a.group < names.length) (hresets : ∀ i ∈ resets, i < names.length)
    {i : ℕ} {g₀ g : FetchNntpGroup} (h₀ : loaded[i]? = some g₀) (hg : groups[i]? = some g) :
    Recorded names seen resets i g₀ g := by
  have hentry := h.entry i g₀ g h₀ hg
  have hkey : g.key = g₀.key := by
    have hkeys := congrArg (fun gs => gs[i]?) h.shape
    simpa [h₀, hg] using hkeys
  unfold EntryOk at hentry
  refine ⟨congrArg Prod.fst hkey, fun a ha => ?_, fun hnone hi => ?_, fun hi => ?_⟩
  · rwa [ha] at hentry
  · rw [hnone] at hentry
    exact hentry hi
  · have hnone : lastOf i seen = none := lastOf_eq_none fun a ha => by
      have hlt := hseen a ha
      omega
    rw [hnone] at hentry
    refine hentry fun hmem => ?_
    have hlt := hresets i hmem
    omega

/-- At the end of the session everything announced has been saved. -/
theorem Sound.complete (hs : Sound names old [] c (books e)) (hc : c.state = .quit)
    (hrefused : (books e).refusedSince = []) : CacheComplete names old e := by
  have ht := hs.tableOf hc nofun
  have hall : e.hist.seen.length ≤ (books e).lastSeen.length := by
    by_contra hlt
    rcases hs.places.since (books e).lastSeen.length (Nat.le_refl _) (by simpa [books] using hlt) with
      hmem | hmem | ⟨htrue, -⟩
    · rw [hrefused] at hmem
      cases hmem
    · cases hmem
    · rw [hc] at htrue
      cases htrue
  rcases hlast : e.hist.saves.getLast? with - | x
  · -- nothing was announced, and the old cache file is still there
    have hlastSeen : (books e).lastSeen = [] := by
      show (e.hist.saves.getLast?.map Save.seen).getD [] = []
      rw [hlast]
      rfl
    have hseen : e.hist.seen = [] := by
      rw [hlastSeen] at hall
      exact List.eq_nil_of_length_eq_zero (Nat.le_zero.mp hall)
    have hright : Right e.hist.loaded e.hist.loaded e.hist.seen e.hist.resets := by
      rw [hseen]
      exact (right_loaded _).mono (List.nil_subset _)
    exact ⟨e.hist.loaded, e.hist.loaded, ht.loaded, rfl,
      fun i g₀ g h₀ hg => hright.recorded ht.seen ht.resets h₀ hg,
      Or.inr ⟨ht.unsaved (List.getLast?_eq_none_iff.mp hlast), rfl⟩⟩
  · obtain ⟨hdisk, hprefix, hright⟩ := ht.saved x hlast
    have hlastSeen : (books e).lastSeen = x.seen := by
      show (e.hist.saves.getLast?.map Save.seen).getD [] = x.seen
      rw [hlast]
      rfl
    have hseen : x.seen = e.hist.seen := by
      refine hprefix.eq_of_length_le ?_
      rw [← hlastSeen]
      exact hall
    rw [hseen] at hright
    have hlen : x.groups.length = e.hist.loaded.length := by
      have hmap := congrArg List.length hright.shape
      rwa [List.length_map, List.length_map] at hmap
    exact ⟨e.hist.loaded, x.groups, ht.loaded, hlen,
      fun i g₀ g h₀ hg => hright.recorded ht.seen ht.resets h₀ hg, Or.inl hdisk⟩

/-- The end of a run, as an invariant of the runs that leave nothing for after the end of
the session. -/
def complete (conf : Conf) (names : List (List Char)) (old : Option (List Char)) :
    LoopInv (fetcher conf) conf quitGuard noCommitGuard where
  run q c e := Sound names old q c (books e)
  done q e := q = [] ∧ CacheComplete names old e
  dead _ := True
  run_dead _ := trivial
  done_dead _ := trivial
  dead_abort _ := trivial
  dead_auxfree _ := trivial
  run_flags _ _ h := ⟨h.start, h.places, h.table⟩
  run_input i h := by cases i <;> exact h
  done_input i h := by cases i <;> exact h
  state {q c e} h hguard _ := by
    refine good_state h fun hquit line rest hreply => ?_
    obtain ⟨hnil, hrefused⟩ := hguard hquit line rest hreply
    rw [hnil] at h
    exact ⟨hnil, h.complete hquit hrefused⟩
  commit dec h hx _ := h.commit dec hx
  commit_done dec h hx _ := by
    rw [h.1] at hx
    exact absurd hx (by simp)

/-- In every run that leaves nothing for after the end of the session and ends without an
error, the cache file is complete at the end. -/
theorem cache_complete
    (h : Lib.Runs.Reach (step (fetcher conf) conf) (stepGuard conf quitGuard noCommitGuard)
      (begin conf poll user pass names old) l)
    (hover : l.ended = true) (hok : l.aborted = false) : CacheComplete names old l.data := by
  have hinit : Sound names old [] { state := .connect, flags := { poll := poll } }
      (books { data := { user := user, pass := pass, names := names }, disk := old, hist := {} }) :=
    sound_begin _ _ rfl rfl rfl
  have hholds := LoopInv.holds_reach (I := complete conf names old) hinit h
  have hcomplete : l.complete = true := by
    rw [Loop.ended, hok, Bool.false_or, Bool.and_eq_true] at hover
    exact hover.1
  unfold LoopInv.Holds at hholds
  rw [hok, hcomplete] at hholds
  exact hholds.2

/-- Behind the end of the session the groups are gone, and a commit leaves an empty file. -/
theorem disk_commit_abort (m : Mail ℕ) (hfault : e.fault = false) :
    (commit m (abort e)).2.2.disk = some [] := by
  rw [commit_eq, if_neg (by rw [show (abort e).fault = false from hfault]; decide)]
  rfl

/-! ## Sample dialogues -/

/-- One group, and no cache file. -/
def sampleBegin : Loop Env State ℕ := begin {} false none none [['g']] none

/-- Connect, select the group and fetch its first article, 1 of the id `a`. -/
def fetchFirst : List (Act Input) :=
  [.pass, srv ['2', '0', '0'], .pass, .pass, srv ['2', '1', '1', ' ', '2', ' ', '1', ' ', '2'],
    .pass, srv ['2', '2', '3', ' ', '1', ' ', '<', 'a', '>'], .pass, srv ['2', '2', '0'], .pass,
    srv ['x'], srv ['.'], .pass]

/-- The next article is announced, 2 of the id `b`. -/
def announceSecond : List (Act Input) :=
  [srv ['2', '2', '3', ' ', '2', ' ', '<', 'b', '>'], .pass]

/-- There is no other article: the session ends. -/
def endSession : List (Act Input) :=
  [srv ['4', '2', '1'], .pass, .pass, srv ['2', '0', '5'], .pass]

/-- The guards, as tests for the sample runs. -/
def meetsLoneGuard (l : Loop Env State ℕ) : Act Input → Bool
  | .pass => l.fctx.state ≠ .line || !endsOversize {} l.fctx.mail l.data || l.queue = []
  | .dequeue _ _ =>
    l.queue.length = 1 && (l.complete || (l.fctx.state ≠ .article && l.fctx.state ≠ .line))
  | _ => true

theorem guard_of_meetsLoneGuard (l : Loop Env State ℕ) (a : Act Input)
    (h : meetsLoneGuard l a = true) : stepGuard {} (loneBigGuard {}) loneGuard l a := by
  cases a with
  | pass =>
    intro _ hline hends
    simpa [meetsLoneGuard, hline, hends] using h
  | dequeue n d =>
    intro x _
    simp only [meetsLoneGuard, Bool.and_eq_true, Bool.or_eq_true, decide_eq_true_eq] at h
    obtain ⟨hlen, hstate⟩ := h
    refine ⟨hlen, ?_, ?_⟩ <;> rcases hstate with hdone | ⟨harticle, hline⟩ <;> simp_all
  | _ => trivial

/-- A reply to `QUIT` is read when nothing is left to do. -/
def meetsQuitGuard (l : Loop Env State ℕ) (_ : Act Input) : Bool :=
  l.fctx.state ≠ .quit || (l.queue = [] && (books l.data).refusedSince = [])

theorem guard_of_meetsQuitGuard (l : Loop Env State ℕ) (a : Act Input)
    (h : meetsQuitGuard l a = true) : stepGuard {} quitGuard noCommitGuard l a := by
  cases a with
  | pass =>
    intro _ hquit line rest _
    simpa [meetsQuitGuard, hquit] using h
  | _ => simp [stepGuard, noCommitGuard]

theorem keepFirst_runs :
    (Lib.Runs.exec (Lib.Runs.guarded (step (fetcher {}) {}) meetsLoneGuard) sampleBegin
      (fetchFirst ++ [.dequeue 0 .keep])).isSome = true := by decide

theorem cache_behind_commits_keepFirst :
    ∃ l : Loop Env State ℕ, l.data.hist.saves.length = 1 ∧ NeverAhead none l.data :=
  ⟨_, by decide +kernel, cache_behind_commits (Lib.Runs.reach_getGuarded guard_of_meetsLoneGuard
    keepFirst_runs)⟩

theorem aheadRun_runs :
    (Lib.Runs.exec (step (fetcher {}) {}) sampleBegin
      (fetchFirst ++ announceSecond ++ [.dequeue 0 .keep])).isSome = true := by decide

/-- The commit of the first article saves the number of the second, which has only been
announced. -/
theorem ahead_of_delivery :
    ∃ l, Lib.Runs.Reach (step (fetcher {}) {}) Lib.Runs.anyStep sampleBegin l ∧
      ¬ NeverAhead none l.data := by
  refine ⟨_, Lib.Runs.reach_get aheadRun_runs, fun h => ?_⟩
  have hsave := (h.saves _ (List.head_mem (by decide +kernel))).1 1
    ⟨0, 2, ['b']⟩ ⟨['g'], false, 2, 2, some ['b']⟩ (by decide +kernel) (by decide +kernel) (by decide)
  exact absurd hsave (by decide +kernel)

theorem completeRun_runs :
    (Lib.Runs.exec (Lib.Runs.guarded (step (fetcher {}) {}) meetsQuitGuard) sampleBegin
      (fetchFirst ++ [.dequeue 0 .keep] ++ endSession)).isSome = true := by decide

theorem cache_complete_keepFirst :
    ∃ l : Loop Env State ℕ,
      l.data.disk = some ['1', ' ', 'g', ' ', '1', ' ', '1', ' ', 'a', '\n'] ∧
        CacheComplete [['g']] none l.data :=
  ⟨_, by decide +kernel, cache_complete (Lib.Runs.reach_getGuarded guard_of_meetsQuitGuard
    completeRun_runs) (by decide +kernel) (by decide +kernel)⟩

theorem quitRun_runs :
    (Lib.Runs.exec (step (fetcher {}) {}) sampleBegin
      (fetchFirst ++ endSession ++ [.dequeue 0 .keep])).isSome = true := by decide

/-- The last mail is committed after the reply to `QUIT`, and the cache file ends up empty. -/
theorem emptied_by_quit :
    ∃ l, Lib.Runs.Reach (step (fetcher {}) {}) Lib.Runs.anyStep sampleBegin l ∧
      l.ended = true ∧ l.aborted = false ∧ ¬ CacheComplete [['g']] none l.data := by
  refine ⟨_, Lib.Runs.reach_get quitRun_runs, by decide +kernel, by decide +kernel, ?_⟩
  rintro ⟨loaded, groups, hload, hlen, hrecorded, hdisk⟩
  have hempty : (Loop.data ((Lib.Runs.exec (step (fetcher {}) {}) sampleBegin
      (fetchFirst ++ endSession ++ [.dequeue 0 .keep])).get quitRun_runs)).disk = some [] := by
    decide +kernel
  obtain rfl : [{ name := ['g'] }] = loaded := Option.some.inj hload
  obtain ⟨g, rfl⟩ := List.length_eq_one_iff.mp hlen
  obtain ⟨-, hid⟩ := (hrecorded 0 _ g rfl rfl).fetched ⟨0, 1, ['a']⟩ (by decide +kernel)
  rw [hempty] at hdisk
  rcases hdisk with hdisk | ⟨hdisk, -⟩
  · -- an entry with an id takes some room
    have hnil := Option.some.inj hdisk
    simp [saveFile, saveEntry, hid] at hnil
  · cases hdisk

end Fdm.Nntp
