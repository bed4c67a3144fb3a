import Fdm.Mbox.Outcome

/-!
# The passes of a fetch

A fetch of one mbox, pass by pass: `yields_mail` says how the mail at an offset is read and
what is done with it, and `yields_end` that the fetch is over when there is no mail left.
-/

namespace Fdm.Mbox

open Fdm.Fetch Lib.Lines

/-! ## Reading a mail -/

/-- The sizes from which on nothing is appended. -/
def bigger (max : ℕ) (n : ℕ) : Bool := decide (max < n)

/-- The scanner stops behind lines that start no new mail. -/
theorem scanLines_quiet (max : ℕ) {off : ℕ} {ls tail : List (List Char)}
    (hquiet : Quiet (decide (off = 0)) ls) (hne : ∀ l ∈ ls, l ≠ [])
    (hstop : ∀ l rest, tail = l :: rest → IsFrom l ∧ off + ls.flatten.length ≠ 0)
    (text : List Char) :
    scanLines (bigger max) off (ls ++ tail) text =
      ⟨off + ls.flatten.length, off + ls.flatten.length + (tail.headD []).length,
        keepLines max ls text⟩ := by
  induction ls generalizing off text with
  | nil =>
    cases tail with
    | nil => rfl
    | cons l rest =>
      obtain ⟨hfrom, hoff⟩ := hstop l rest rfl
      rw [List.nil_append, scanLines, if_pos ⟨hoff, hfrom⟩]
      rfl
  | cons l ls ih =>
    have hl : ¬ (off ≠ 0 ∧ Mail.fromPrefix <+: chomp l) := by
      rintro ⟨hoff, hfrom⟩
      exact hquiet.1 (decide_eq_false hoff) hfrom
    have hpos : 0 < l.length := List.length_pos_iff.mpr (hne l List.mem_cons_self)
    have hlen : off + l.length + ls.flatten.length = off + (l :: ls).flatten.length := by
      rw [List.flatten_cons, List.length_append]
      omega
    have hrest := @ih (off + l.length) (quiet_of_forall hquiet.2)
      (fun x hx => hne x (List.mem_cons_of_mem l hx))
    rw [hlen] at hrest
    rw [List.cons_append, scanLines, if_neg hl, keepLines]
    by_cases hbig : max < text.length
    · rw [if_pos hbig, if_pos (by simpa [bigger] using hbig)]
      exact hrest hstop text
    · rw [if_neg hbig, if_neg (by simpa [bigger] using hbig)]
      exact hrest hstop _

/-- The mail at an offset, when its lines are known. -/
theorem scanMail_quiet (max : ℕ) {base : List Char} {off : ℕ} {ls tail : List (List Char)}
    (hlines : lines (base.drop off) = ls ++ tail) (hquiet : Quiet (decide (off = 0)) ls)
    (hstop : ∀ l rest, tail = l :: rest → IsFrom l ∧ off + ls.flatten.length ≠ 0) (i : ℕ) :
    (scanMail (bigger max) base off i).1.fmbox = i ∧
      (scanMail (bigger max) base off i).2.1
        = off + ls.flatten.length + (tail.headD []).length ∧
      ((∃ u, ls.flatten = u ++ ['\n', '\n']) → (scanMail (bigger max) base off i).2.2
        = (keepLines max ls []).take ((keepLines max ls []).length - 2)) ∧
      (¬ (∃ u, ls.flatten = u ++ ['\n', '\n']) →
        (scanMail (bigger max) base off i).2.2 = keepLines max ls []) := by
  have hne : ∀ l ∈ ls, l ≠ [] := by
    intro l hl
    apply ne_nil_of_mem_lines (s := base.drop off)
    rw [hlines]
    exact List.mem_append_left _ hl
  have hbase : base.drop off = ls.flatten ++ tail.flatten := by
    rw [← List.flatten_append, ← hlines, flatten_lines]
  have hscan := scanLines_quiet max hquiet hne hstop []
  rw [← hlines] at hscan
  have hsize : off + ls.flatten.length - off = ls.flatten.length := by omega
  unfold scanMail
  dsimp only
  rw [hscan]
  dsimp only
  rw [hsize]
  by_cases hblank : ∃ u, ls.flatten = u ++ ['\n', '\n']
  · rw [if_pos ((endsBlank_iff hbase).mpr hblank)]
    exact ⟨rfl, rfl, fun _ => rfl, fun hno => absurd hblank hno⟩
  · rw [if_neg (mt (endsBlank_iff hbase).mp hblank)]
    exact ⟨rfl, rfl, fun hyes => absurd hyes hblank, fun _ => rfl⟩

/-! ## How a fetch ends -/

/-- A fetch from this state on ends in the given result, after enough passes. -/
def Yields (conf : Conf) (rules : List Char → Decision) (l : Loop Env State FetchMboxMail)
    (r : Option (List (List Char))) : Prop :=
  ∃ n₀, ∀ n, n₀ ≤ n → fetchEach conf rules n l = r

section Yields

variable {conf : Conf} {rules : List Char → Decision} {l : Loop Env State FetchMboxMail}
  {r : Option (List (List Char))}

/-- A run gives one list of mails at most. -/
theorem Yields.unique {r' : Option (List (List Char))} (h : Yields conf rules l r)
    (h' : Yields conf rules l r') : r = r' := by
  obtain ⟨n₁, hn₁⟩ := h
  obtain ⟨n₂, hn₂⟩ := h'
  rw [← hn₁ (n₁ + n₂) (by omega), hn₂ (n₁ + n₂) (by omega)]

/-- One step of `fetchEach`. -/
theorem Yields.step {l' : Loop Env State FetchMboxMail} {r' : Option (List (List Char))}
    (hstep : ∀ n, fetchEach conf rules n l' = r' → fetchEach conf rules (n + 1) l = r)
    (h : Yields conf rules l' r') : Yields conf rules l r := by
  obtain ⟨n₀, hn₀⟩ := h
  refine ⟨n₀ + 1, fun n hn => ?_⟩
  obtain ⟨k, rfl⟩ : ∃ k, n = k + 1 := ⟨n - 1, by omega⟩
  exact hstep k (hn₀ k (by omega))

/-- A fetch that is over stays over. -/
theorem yields_of_some {n : ℕ} {fs : List (List Char)} (h : fetchEach conf rules n l = some fs) :
    Yields conf rules l (some fs) := by
  refine ⟨n, fun k hk => ?_⟩
  induction n generalizing k l fs with
  | zero => cases h
  | succ n ih =>
    obtain ⟨k, rfl⟩ : ∃ j, k = j + 1 := ⟨k - 1, by omega⟩
    rw [fetchEach] at h ⊢
    by_cases haborted : l.aborted = true
    · rw [if_pos haborted] at h
      cases h
    · rw [if_neg haborted] at h ⊢
      cases hqueue : l.queue with
      | nil =>
        rw [hqueue] at h
        dsimp only at h ⊢
        by_cases hcomplete : l.complete = true
        · rw [if_pos hcomplete] at h ⊢
          exact h
        · rw [if_neg hcomplete] at h ⊢
          exact ih h k (by omega)
      | cons m q =>
        rw [hqueue] at h
        obtain ⟨gs, hgs, rfl⟩ := Option.map_eq_some_iff.mp h
        dsimp only
        rw [ih hgs k (by omega)]
        rfl

/-- A fetch that was aborted gives none. -/
theorem yields_aborted (h : l.aborted = true) : Yields conf rules l none := by
  refine ⟨0, fun n _ => ?_⟩
  cases n with
  | zero => rfl
  | succ n => rw [fetchEach, if_pos h]

/-- One that is complete has given all. -/
theorem yields_complete (haborted : l.aborted = false) (hqueue : l.queue = [])
    (hcomplete : l.complete = true) : Yields conf rules l (some []) := by
  refine ⟨1, fun n hn => ?_⟩
  obtain ⟨k, rfl⟩ : ∃ k, n = k + 1 := ⟨n - 1, by omega⟩
  rw [fetchEach, if_neg (by simp [haborted]), hqueue]
  exact if_pos hcomplete

/-- A pass of the loop, while nothing is queued. -/
theorem yields_pass (haborted : l.aborted = false) (hqueue : l.queue = [])
    (hcomplete : l.complete = false) (h : Yields conf rules (l.pass (fetcher conf) conf) r) :
    Yields conf rules l r := by
  refine h.step fun n hn => ?_
  rw [fetchEach, if_neg (by simp [haborted]), hqueue, ← hn]
  exact if_neg (by simp [hcomplete])

/-- The mail on the queue is given. -/
theorem yields_dequeue {m : Mail FetchMboxMail} (haborted : l.aborted = false)
    (hqueue : l.queue = [m])
    (h : Yields conf rules (l.dequeue (fetcher conf) conf 0 m (rules m.data)) r) :
    Yields conf rules l (r.map (m.data :: ·)) := by
  refine h.step fun n hn => ?_
  rw [fetchEach, if_neg (by simp [haborted]), hqueue, ← hn]

end Yields

/-! ## The states of the fetch -/

/-- The mbox is open, and every mail read so far was either dropped or kept. -/
structure Healthy (path base : List Char) (e : Env) : Prop where
  fault : e.fault = false
  mbox : ∃ total, e.data.fmboxes = [⟨path, e.data.kept.length, total, base⟩]
  kept : ∀ k ∈ e.data.kept, k.freed = false ∧ k.aux.fmbox = 0

/-- Nothing is queued, and the fetcher is in the given state. -/
structure At (state : State) (index : ℕ) (path base : List Char)
    (l : Loop Env State FetchMboxMail) : Prop where
  aborted : l.aborted = false
  complete : l.complete = false
  queue : l.queue = []
  state : l.fctx.state = state
  mail : l.fctx.mail = {}
  index : l.data.data.index = index
  healthy : Healthy path base l.data

/-- What a pass does in front of the fetch function. -/
def prepared (conf : Conf) (l : Loop Env State FetchMboxMail) : Loop Env State FetchMboxMail :=
  ((l.purge conf).hold conf).markEmpty

section Passes

variable {conf : Conf} {rules : List Char → Decision} {path base : List Char} {off : ℕ}
  {l : Loop Env State FetchMboxMail}

theorem agree_prepared (conf : Conf) (l : Loop Env State FetchMboxMail) : Agree l (prepared conf l) :=
  (agree_prepare conf l).trans ⟨rfl, rfl, rfl, rfl, rfl, rfl, rfl⟩

/-- Where the fetcher is does not depend on the flags of the loop. -/
theorem At.agree {state : State} {index : ℕ} {l' : Loop Env State FetchMboxMail}
    (h : At state index path base l) (hl : Agree l l') : At state index path base l' where
  aborted := hl.aborted.trans h.aborted
  complete := hl.complete.trans h.complete
  queue := hl.queue.trans h.queue
  state := hl.state.trans h.state
  mail := hl.mail.trans h.mail
  index := by rw [hl.data]; exact h.index
  healthy := by rw [hl.data]; exact h.healthy

/-- With nothing queued, a pass calls the fetch function. -/
theorem pass_eq (hhigh : 0 < conf.queueHigh) (hqueue : l.queue = []) (hcomplete : l.complete = false) :
    l.pass (fetcher conf) conf = (prepared conf l).call (fetcher conf) conf := by
  have hagree := agree_purge conf l
  have hlen : (l.purge conf).queue.length = 0 := by
    rw [hagree.queue, hqueue]
    rfl
  have hcalls : l.calls conf = true := by
    rw [Loop.calls, Loop.hold, if_neg (by omega), if_pos (by omega), hcomplete]
    rfl
  rw [Loop.pass, if_pos hcalls]
  rfl

variable (conf) in
theorem empty_prepared (hqueue : l.queue = []) : (prepared conf l).fctx.flags.empty = true := by
  show ((l.purge conf).hold conf).queue.isEmpty = true
  rw [(agree_prepare conf l).queue, hqueue]
  rfl

/-! ## The end of the mbox -/

/-- Saving goes through where no call fails and nothing was freed twice. -/
theorem saveAll_healthy {e : Env} (h : Healthy path base e) : ∃ e', saveAll [0] e = .ok e' := by
  obtain ⟨total, hmbox⟩ := h.mbox
  have hfreed : e.data.kept.any Kept.freed = false := by
    rw [List.any_eq_false]
    intro k hk
    rw [(h.kept k hk).1]
    exact Bool.false_ne_true
  have hcount : (e.data.kept.countP fun k => k.aux.fmbox = 0) = e.data.kept.length := by
    rw [List.countP_eq_length]
    intro k hk
    exact decide_eq_true (h.kept k hk).2
  have hmine : ((e.data.kept.map Kept.aux).filter fun aux => aux.fmbox = 0).length
      = e.data.kept.length := by
    rw [List.filter_eq_self.mpr, List.length_map]
    intro aux haux
    obtain ⟨k, hk, rfl⟩ := List.mem_map.mp haux
    exact decide_eq_true (h.kept k hk).2
  have hothers : (e.data.kept.filter fun k => k.aux.fmbox ≠ 0) = [] := by
    rw [List.filter_eq_nil_iff]
    intro k hk
    simp [(h.kept k hk).2]
  -- each way of saving ends in `freeAll`, with nothing that refers to the mbox left
  have hfree : ∀ fmbox e', e'.data.kept.any Kept.freed = false →
      fmbox.reference - (e'.data.kept.countP fun k => k.aux.fmbox = 0) = 0 →
      ∃ e'', freeAll 0 fmbox e' = .ok e'' := by
    intro fmbox e' hany hzero
    unfold freeAll
    rw [if_neg (by rw [hany]; exact Bool.false_ne_true)]
    exact ⟨_, if_neg (not_not.mpr hzero)⟩
  have hsave : ∃ e', save 0 ⟨path, e.data.kept.length, total, base⟩ e = .ok e' := by
    unfold save
    dsimp only
    by_cases hnone : e.data.kept.length = 0
    · rw [if_pos hnone]
      by_cases htotal : total ≠ 0
      · rw [if_pos htotal, if_neg (by simp [h.fault])]
        exact hfree _ _ hfreed (by simp [hnone])
      · rw [if_neg htotal]
        exact hfree _ _ hfreed (by simp [hnone])
    · rw [if_neg hnone]
      by_cases hall : e.data.kept.length = total
      · rw [if_pos hall]
        refine hfree _ _ hfreed ?_
        rw [hcount]
        exact Nat.sub_self _
      · rw [if_neg hall, if_neg (by simp [h.fault]), if_neg (by simp [hfreed])]
        refine hfree _ _ ?_ ?_
        · show (e.data.kept.filter fun k => k.aux.fmbox ≠ 0).any Kept.freed = false
          rw [hothers]
          rfl
        · show e.data.kept.length - _ - _ = 0
          rw [hmine, Nat.sub_self]
          exact Nat.zero_sub _
  obtain ⟨e', he'⟩ := hsave
  refine ⟨e', ?_⟩
  rw [saveAll, hmbox]
  dsimp only [List.getElem?_cons_zero]
  rw [he']
  rfl

/-- The last state ends the fetch. -/
theorem yields_exit (hhigh : 0 < conf.queueHigh) (index : ℕ) (h : At .exit index path base l) :
    Yields conf rules l (some []) := by
  refine yields_pass h.aborted h.queue h.complete ?_
  rw [pass_eq hhigh h.queue h.complete]
  have hat := h.agree (agree_prepared conf l)
  obtain ⟨e', he'⟩ := saveAll_healthy hat.healthy
  have hmbox := hat.healthy.mbox
  have hstate : (fetcher conf).state (prepared conf l).fctx (prepared conf l).data
      = (.exit, (prepared conf l).fctx, abort e') := by
    obtain ⟨total, hmbox⟩ := hmbox
    show state conf _ _ = _
    rw [state, hat.state]
    dsimp only
    have hsaved : saveAll (List.range (prepared conf l).data.data.fmboxes.length)
        (prepared conf l).data = .ok e' := by
      rw [hmbox]
      exact he'
    rw [stateExit, hsaved]
  rw [Loop.call, hstate]
  exact yields_complete hat.aborted hat.queue rfl

/-- No mail is left to be read. -/
theorem yields_next (hhigh : 0 < conf.queueHigh) (h : At .next 0 path base l) :
    Yields conf rules l (some []) := by
  refine yields_pass h.aborted h.queue h.complete ?_
  rw [pass_eq hhigh h.queue h.complete]
  have hat := h.agree (agree_prepared conf l)
  obtain ⟨total, hmbox⟩ := hat.healthy.mbox
  have hempty := empty_prepared conf h.queue
  generalize prepared conf l = p at hat hmbox hempty
  have hstate : (fetcher conf).state p.fctx p.data
      = (.again, { p.fctx with state := .exit },
        { p.data with data := { p.data.data with index := 1 } }) := by
    show state conf _ _ = _
    rw [state, hat.state]
    dsimp only
    rw [stateNext, hmbox, hat.index]
    simp [hempty, hmbox]
  rw [Loop.call, hstate]
  exact yields_exit hhigh 1
    ⟨hat.aborted, hat.complete, hat.queue, rfl, hat.mail, rfl,
      ⟨hat.healthy.fault, ⟨total, hmbox⟩, hat.healthy.kept⟩⟩

/-- The fetcher is about to read the mail at an offset. -/
structure Reading (path base : List Char) (off : ℕ) (l : Loop Env State FetchMboxMail) : Prop where
  at_mail : At .mail 0 path base l
  off : l.data.data.off = off

theorem Reading.agree {l' : Loop Env State FetchMboxMail} (h : Reading path base off l)
    (hl : Agree l l') : Reading path base off l' where
  at_mail := h.at_mail.agree hl
  off := by rw [hl.data]; exact h.off

/-- When there is no mail left, the fetch is over. -/
theorem yields_end (hhigh : 0 < conf.queueHigh) (h : Reading path base base.length l) :
    Yields conf rules l (some []) := by
  have hat := h.at_mail
  refine yields_pass hat.aborted hat.queue hat.complete ?_
  rw [pass_eq hhigh hat.queue hat.complete]
  have hread := h.agree (agree_prepared conf l)
  generalize prepared conf l = p at hread
  have hp := hread.at_mail
  obtain ⟨total, hmbox⟩ := hp.healthy.mbox
  have hstate : (fetcher conf).state p.fctx p.data
      = (.again, { p.fctx with state := .next }, p.data) := by
    show state conf _ _ = _
    rw [state, hp.state]
    dsimp only
    rw [stateMail, hmbox, hp.index, hread.off]
    simp
  rw [Loop.call, hstate]
  exact yields_next hhigh
    ⟨hp.aborted, hp.complete, hp.queue, rfl, hp.mail, hp.index, hp.healthy⟩

/-! ## Reading a mail in the loop -/

/-- The result of a fetch whose next mail has the given text, when the rest of it ends in
`r`. -/
def after (conf : Conf) (text : List Char) (r : Option (List (List Char))) :
    Option (List (List Char)) :=
  match enqueued conf text with
  | .refused => none
  | .deleted => r
  | .queued f => r.map (f :: ·)

theorem trimFrom_data (m : Mail FetchMboxMail) : m.withBody.trimFrom.data = trimmed m.data := by
  unfold trimmed Mail.trimFrom
  have hbody : m.withBody.body = ({ data := m.data } : Mail FetchMboxMail).withBody.body := rfl
  have hsize : m.withBody.size = ({ data := m.data } : Mail FetchMboxMail).withBody.size := rfl
  have hdata : m.withBody.data = ({ data := m.data } : Mail FetchMboxMail).withBody.data := rfl
  rw [hbody, hsize, hdata]
  split_ifs <;> rfl

/-- The environment behind `fetch_mbox_state_mail`. -/
def handedOut (e : Env) (fmbox : FetchMboxMbox) (aux : FetchMboxMail) (next : ℕ) : Env :=
  setFmbox 0 { fmbox with reference := fmbox.reference + 1, total := fmbox.total + 1 }
    { e with
      data := { e.data with off := next }
      hist := { e.hist with fetched := e.hist.fetched ++ [aux] } }

/-- A mail that was handed out is committed. -/
theorem commit_counted {e : Env} {total : ℕ} {aux : FetchMboxMail} (hfault : e.fault = false)
    (hmbox : e.data.fmboxes = [⟨path, e.data.kept.length + 1, total, base⟩])
    (hkept : ∀ k ∈ e.data.kept, k.freed = false ∧ k.aux.fmbox = 0) (haux : aux.fmbox = 0)
    {m : Mail FetchMboxMail} (hm : m.auxdata = some aux) :
    ∃ m' e', commit m e = (.again, m', e') ∧
      (fetchMboxFree m' e').data.index = e.data.index ∧
      (fetchMboxFree m' e').data.off = e.data.off ∧ Healthy path base (fetchMboxFree m' e') := by
  cases hdec : m.decision with
  | keep =>
    have hcommit : commit m e = (.again, { m with auxdata := none },
        { e with
          data := { e.data with kept := e.data.kept ++ [⟨aux, false⟩] }
          hist := { e.hist with kept := e.hist.kept ++ [aux] } }) := by
      rw [commit, hm, hdec]
    refine ⟨_, _, hcommit, rfl, rfl, hfault, ⟨total, ?_⟩, ?_⟩
    · show e.data.fmboxes = [⟨path, (e.data.kept ++ [_]).length, total, base⟩]
      rw [hmbox, List.length_append]
      rfl
    · intro k hk
      rcases List.mem_append.mp hk with hk | hk
      · exact hkept k hk
      · rw [List.mem_singleton.mp hk]
        exact ⟨rfl, haux⟩
  | drop =>
    have hcommit : commit m e
        = (.again, m, { e with hist := { e.hist with dropped := e.hist.dropped ++ [aux] } }) := by
      rw [commit, hm, hdec]
    have hfree : ∀ e' : Env, e'.data = e.data →
        fetchMboxFree m e' = setFmbox 0 ⟨path, e.data.kept.length, total, base⟩ e' := by
      intro e' he'
      rw [fetchMboxFree, hm]
      dsimp only
      rw [haux, he', hmbox]
      rfl
    refine ⟨_, _, hcommit, ?_⟩
    have hfreed :=
      hfree { e with hist := { e.hist with dropped := e.hist.dropped ++ [aux] } } rfl
    rw [hfreed]
    refine ⟨rfl, rfl, hfault, ⟨total, ?_⟩, hkept⟩
    show e.data.fmboxes.set 0 _ = _
    rw [hmbox]
    rfl

/-- The mail that was handed out is committed and freed. -/
theorem commit_handedOut {e : Env} {total next : ℕ} {aux : FetchMboxMail}
    (h : Healthy path base e) (hindex : e.data.index = 0)
    (hmbox : e.data.fmboxes = [⟨path, e.data.kept.length, total, base⟩]) (haux : aux.fmbox = 0)
    {m : Mail FetchMboxMail} (hm : m.auxdata = some aux) :
    ∃ m' e', commit m (handedOut e ⟨path, e.data.kept.length, total, base⟩ aux next)
        = (.again, m', e') ∧
      (fetchMboxFree m' e').data.index = 0 ∧ (fetchMboxFree m' e').data.off = next ∧
      Healthy path base (fetchMboxFree m' e') := by
  have hfmboxes : (handedOut e ⟨path, e.data.kept.length, total, base⟩ aux next).data.fmboxes
      = [⟨path, e.data.kept.length + 1, total + 1, base⟩] := by
    show e.data.fmboxes.set 0 _ = _
    rw [hmbox]
    rfl
  obtain ⟨m', e', hcommit, hindex', hoff', hhealthy⟩ :=
    commit_counted (e := handedOut e ⟨path, e.data.kept.length, total, base⟩ aux next)
      h.fault hfmboxes h.kept haux hm
  exact ⟨m', e', hcommit, hindex'.trans hindex, hoff', hhealthy⟩

/-- The mail at an offset is read, and enqueued or not; then the fetch goes on behind it. -/
theorem yields_mail (hhigh : 0 < conf.queueHigh) (h : Reading path base off l)
    (hoff : off ≠ base.length) {text : List Char} {next : ℕ} {r : Option (List (List Char))}
    (hfmbox : (scanMail (bigger conf.maxSize) base off 0).1.fmbox = 0)
    (hnext : (scanMail (bigger conf.maxSize) base off 0).2.1 = next)
    (htext : (scanMail (bigger conf.maxSize) base off 0).2.2 = text)
    (hrest : enqueued conf text ≠ .refused →
      ∀ l', Reading path base next l' → Yields conf rules l' r) :
    Yields conf rules l (after conf text r) := by
  have hat := h.at_mail
  refine yields_pass hat.aborted hat.queue hat.complete ?_
  rw [pass_eq hhigh hat.queue hat.complete]
  have hread := h.agree (agree_prepared conf l)
  generalize prepared conf l = p at hread
  have hp := hread.at_mail
  obtain ⟨total, hmbox⟩ := hp.healthy.mbox
  obtain ⟨aux, haux⟩ : ∃ aux, aux = (scanMail (bigger conf.maxSize) base off 0).1 := ⟨_, rfl⟩
  obtain ⟨m, hm⟩ : ∃ m : Mail FetchMboxMail, m = { data := text, auxdata := some aux } := ⟨_, rfl⟩
  have hstate : (fetcher conf).state p.fctx p.data
      = (.mail, { p.fctx with mail := m },
        handedOut p.data ⟨path, p.data.data.kept.length, total, base⟩ aux next) := by
    show state conf _ _ = _
    rw [state, hp.state]
    dsimp only
    rw [stateMail, hmbox, hp.index, hread.off]
    dsimp only [List.getElem?_cons_zero]
    rw [if_neg hoff, if_neg (by simp [hp.healthy.fault]), hp.mail, hm, haux, ← hnext, ← htext]
    rfl
  rw [← haux] at hfmbox
  have hmdata : m.data = text := by rw [hm]
  have hmaux : m.auxdata = some aux := by rw [hm]
  have hmsize : m.size = text.length := by rw [Mail.size, hmdata]
  -- where the fetch goes on, once the mail is committed
  have hback : ∀ l' : Loop Env State FetchMboxMail, ∀ m : Mail FetchMboxMail, ∀ e',
      l'.aborted = false → l'.complete = false → l'.queue = [] → l'.fctx.state = .mail →
      l'.fctx.mail = {} → l'.data = fetchMboxFree m e' →
      ((fetchMboxFree m e').data.index = 0 ∧ (fetchMboxFree m e').data.off = next ∧
        Healthy path base (fetchMboxFree m e')) → Reading path base next l' := by
    rintro l' m e' haborted hcomplete hqueue hst hmail hdata ⟨hindex, hnext', hhealthy⟩
    rw [← hdata] at hindex hnext' hhealthy
    exact ⟨⟨haborted, hcomplete, hqueue, hst, hmail, hindex, hhealthy⟩, hnext'⟩
  rw [Loop.call, hstate]
  dsimp only
  rw [Loop.enqueue, after, enqueued, hmsize]
  by_cases hbig : conf.maxSize < text.length
  · rw [if_pos hbig, if_pos hbig]
    by_cases hdel : conf.delBig
    · rw [if_neg (by simp [hdel]), if_pos hdel]
      obtain ⟨m', e', hcommit, hgood⟩ := commit_handedOut (m := { m with decision := .drop })
        hp.healthy hp.index hmbox hfmbox hmaux
      have hcommit' : (fetcher conf).commit { m with decision := .drop }
          (handedOut p.data ⟨path, p.data.data.kept.length, total, base⟩ aux next)
            = (.again, m', e') := hcommit
      have hne : enqueued conf text ≠ .refused := by
        rw [enqueued, if_pos hbig, if_pos hdel]
        simp
      rw [hcommit']
      exact hrest hne _ (hback _ m' e' hp.aborted hp.complete hp.queue hp.state rfl rfl hgood)
    · rw [if_pos (by simp [hdel]), if_neg hdel]
      exact yields_aborted rfl
  · rw [if_neg hbig, if_neg hbig]
    have hdata := trimFrom_data m
    rw [hmdata] at hdata
    have hsize : m.withBody.trimFrom.size = 0 ↔ trimmed text = [] := by
      rw [Mail.size, hdata, List.length_eq_zero_iff]
    by_cases hempty : trimmed text = []
    · rw [if_pos (hsize.mpr hempty), if_pos hempty]
      exact yields_aborted rfl
    · rw [if_neg (mt hsize.mp hempty), if_neg hempty]
      have hqueued : m.withBody.trimFrom.auxdata = some aux := by
        rw [Mail.trimFrom_auxdata, Mail.withBody_auxdata, hmaux]
      generalize m.withBody.trimFrom = t at hdata hqueued
      rw [← hdata]
      dsimp only
      refine yields_dequeue (m := { t with decision := .drop }) hp.aborted ?_ ?_
      · show p.queue ++ [_] = _
        rw [hp.queue]
        rfl
      · obtain ⟨dec, hdec⟩ : ∃ dec, dec = if conf.keepAll then .keep else rules t.data := ⟨_, rfl⟩
        obtain ⟨m', e', hcommit, hgood⟩ := commit_handedOut (m := { t with decision := dec })
          hp.healthy hp.index hmbox hfmbox hqueued
        have hcommit' : (fetcher conf).commit { t with decision := dec }
            (handedOut p.data ⟨path, p.data.data.kept.length, total, base⟩ aux next)
              = (.again, m', e') := hcommit
        rw [Loop.dequeue]
        dsimp only
        rw [← hdec, hcommit']
        have hne : enqueued conf text ≠ .refused := by
          rw [enqueued, if_neg hbig, if_neg hempty]
          simp
        refine hrest hne _ (Reading.agree ?_ (agree_count dec _))
        refine hback _ m' e' hp.aborted hp.complete ?_ hp.state rfl rfl hgood
        show (p.queue ++ [_]).eraseIdx 0 = []
        rw [hp.queue]
        rfl

end Passes

end Fdm.Mbox
