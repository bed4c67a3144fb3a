import Fdm.Pop3.Invariant
import Mathlib.Data.List.Nodup
import Mathlib.Data.List.Range

/-!
# Message numbers of one POP3 session

A POP3 message number means something in the session it was given in only. `Fresh` says
that the numbers the fetcher holds while it fetches are those of the current session.

It needs a condition, `statGuard`: when the answer to `STAT` shows an empty maildrop, or
when there is no UIDL, nothing may be wanted any more. `pop3_state_first` does not look at
the want queue in these two cases, and a reconnect always leaves one.
`not_inSession_of_unlistedStat` shows that the condition is no stronger than needed.
-/

namespace Fdm.Pop3

open Fdm.Fetch Lib.Scanf Lib.KeyedTree

/-! ## The condition -/

/-- The line about to be read is an answer to `STAT` that `pop3_state_first` takes without
asking for a listing: it shows an empty maildrop, or UIDL is off. -/
def unlistedStat (e : Env) : Bool :=
  match e.inbuf with
  | .line line _ :: _ =>
    okay line &&
      match sscanf okayTwo line with
      | [num, _] => num = 0 || !e.data.uidl
      | _ => false
  | _ => false

/-- When `pop3_state_first` reads such an answer, the want queue is empty. -/
def statGuard (_ : List (Mail FetchPop3Mail)) (s : State) (_ : Mail FetchPop3Mail) (e : Env) :
    Prop :=
  s = .first → unlistedStat e = true → e.data.wantq = []

/-! ## The invariant of a session -/

/-- The message number in a command. -/
def Cmd.number : Cmd → Option ℕ
  | .list n => some n
  | .retr n => some n
  | .dele n => some n
  | _ => none

/-- A number sent is the number of the mail it is sent for, and with UIDL this session
has listed that mail under it. -/
def SentOk (uidl : Bool) (x : Sent) : Prop :=
  ∀ n, x.cmd.number = some n →
    ∃ aux, x.aux = some aux ∧ aux.idx = n ∧ (uidl = true → aux ∈ x.listing)

/-- The server tree is the UIDL reply of this session so far. -/
structure Table (serverq : FetchPop3Tree) (listing : List FetchPop3Mail) (cur : ℕ) : Prop where
  listed : ∀ aux, aux ∈ serverq.toList ↔ aux ∈ listing
  numbered : listing.map FetchPop3Mail.idx = List.range' 1 cur

/-- While mails are fetched, the want queue holds each message of the session at most once
and no other, and with UIDL everything not committed is listed under its number. -/
structure InSession (uidl : Bool) (wantq out : List FetchPop3Mail) (num : ℕ)
    (listing : List FetchPop3Mail) : Prop where
  nodup : (wantq.map FetchPop3Mail.idx).Nodup
  range : ∀ aux ∈ wantq, 1 ≤ aux.idx ∧ aux.idx ≤ num
  listed : uidl = true → ∀ aux ∈ wantq ++ out, aux ∈ listing

/-- The mails out of the want queue and not committed or waiting for their DELE. -/
def outstanding (q : List (Mail FetchPop3Mail)) (e : Env) : List FetchPop3Mail :=
  fetched q ++ e.data.dropq

/-- What holds at each point of the dialogue. -/
def Talk (uidl : Bool) (q : List (Mail FetchPop3Mail)) (s : State) (e : Env) : Prop :=
  match s with
  | .connected | .user | .stat | .first => e.hist.listing = []
  | .cache1 => uidl = true ∧ e.hist.listing = [] ∧ e.data.cur = 0
  | .cache2 => uidl = true ∧ Table e.data.serverq e.hist.listing e.data.cur
  | .cache3 =>
    uidl = true ∧ Table e.data.serverq e.hist.listing e.data.cur ∧ e.data.cur = e.data.num
  | .next | .delete | .list | .retr | .line =>
    InSession uidl e.data.wantq (outstanding q e) e.data.num e.hist.listing
  | .init | .connect | .reconnect | .quit => True

/-- The numbers in use are those of the current session, and what is still wanted or on
its way has not vanished. -/
structure Fresh (uidl : Bool) (q : List (Mail FetchPop3Mail)) (s : State) (e : Env) : Prop where
  mode : e.data.uidl = uidl
  sent : ∀ x ∈ e.hist.sent, SentOk uidl x
  present : uidl = true → ∀ u ∈ (e.data.wantq ++ fetched q).map FetchPop3Mail.uid,
    ∀ L ∈ e.hist.listings, u ∈ L
  talk : Talk uidl q s e

/-- What is left of it after an abort. -/
def AllSentOk (uidl : Bool) (e : Env) : Prop := ∀ x ∈ e.hist.sent, SentOk uidl x

/-- What a state function has to give back. -/
def GoodTalk (conf : Conf) (uidl : Bool) (q : List (Mail FetchPop3Mail)) : Result → Prop :=
  Outcome conf (fetcher conf) (fun q c e => Fresh uidl q c.state e) (fun _ e => AllSentOk uidl e)
    (AllSentOk uidl) q

section
variable {uidl : Bool} {q : List (Mail FetchPop3Mail)} {m : Mail FetchPop3Mail} {e : Env}
  {fctx : Ctx} {conf : Conf}

/-! ## Sending and receiving -/

/-- A command is sent. -/
theorem goodTalk_putln {cmd : Cmd} {aux : Option FetchPop3Mail} {s : State}
    (h : Fresh uidl q s e) (hcmd : SentOk uidl ⟨cmd, aux, e.hist.listing⟩) :
    GoodTalk conf uidl q (putln cmd aux s fctx e) := by
  refine putln_cases (P := GoodTalk conf uidl q) h.sent ⟨h.mode, ?_, h.present, h.talk⟩
  intro x hx
  rcases List.mem_append.mp hx with hx | hx
  · exact h.sent x hx
  · rw [List.mem_singleton.mp hx]
    exact hcmd

/-- A command without a message number may always be sent. -/
theorem sentOk_of_number_eq_none {cmd : Cmd} {aux : Option FetchPop3Mail}
    {listing : List FetchPop3Mail} (h : cmd.number = none) :
    SentOk uidl ⟨cmd, aux, listing⟩ := by
  intro n hn
  rw [h] at hn
  cases hn

/-- Reading a line changes nothing the invariant is about. -/
theorem Fresh.inbuf {s : State} (h : Fresh uidl q s e) (inbuf : List Received) :
    Fresh uidl q s { e with inbuf := inbuf } := ⟨h.mode, h.sent, h.present, h.talk⟩

/-- Only the state is another one. -/
theorem Fresh.to {s s' : State} (h : Fresh uidl q s e) (htalk : Talk uidl q s' e) :
    Fresh uidl q s' e := ⟨h.mode, h.sent, h.present, htalk⟩

/-- An answer that is to be OK, where what follows goes well. -/
theorem goodTalk_getOkay {k : List Char → Env → Result} (h : Fresh uidl q fctx.state e)
    (hk : ∀ line stale rest, e.inbuf = .line line stale :: rest → okay line = true →
      Fresh uidl q fctx.state { e with inbuf := rest } →
      GoodTalk conf uidl q (k line { e with inbuf := rest })) :
    GoodTalk conf uidl q (getOkay fctx e k) :=
  getOkay_cases (P := GoodTalk conf uidl q) h (fun _ => h.sent)
    fun line stale rest hbuf hok => hk line stale rest hbuf hok (h.inbuf rest)

/-! ## The state functions -/

theorem goodTalk_stateInit (h : Fresh uidl q fctx.state e) :
    GoodTalk conf uidl q (stateInit fctx e) := by
  refine ⟨h.mode, h.sent, fun huidl u hu => ?_, trivial⟩
  refine h.present huidl u ?_
  rw [List.map_append]
  exact List.mem_append_right _ hu

theorem goodTalk_stateConnect (h : Fresh uidl q fctx.state e) :
    GoodTalk conf uidl q (stateConnect fctx e) := by
  unfold stateConnect
  split_ifs
  · exact h.sent
  · exact ⟨h.mode, h.sent, h.present, rfl⟩

theorem goodTalk_stateConnected (hs : fctx.state = .connected)
    (h : Fresh uidl q fctx.state e) : GoodTalk conf uidl q (stateConnected fctx e) := by
  apply goodTalk_getOkay h
  intro line stale rest _ _ h
  have htalk : e.hist.listing = [] := by simpa [hs, Talk] using h.talk
  split
  · exact goodTalk_putln (h.to htalk) (sentOk_of_number_eq_none rfl)
  · exact goodTalk_putln (h.to htalk) (sentOk_of_number_eq_none rfl)

theorem goodTalk_stateUser (hs : fctx.state = .user) (h : Fresh uidl q fctx.state e) :
    GoodTalk conf uidl q (stateUser fctx e) := by
  apply goodTalk_getOkay h
  intro line stale rest _ _ h
  have htalk : e.hist.listing = [] := by simpa [hs, Talk] using h.talk
  exact goodTalk_putln (h.to htalk) (sentOk_of_number_eq_none rfl)

/-- A session begins without a listing. -/
theorem goodTalk_stateStat (hs : fctx.state = .stat) (h : Fresh uidl q fctx.state e) :
    GoodTalk conf uidl q (stateStat fctx e) := by
  apply goodTalk_getOkay h
  intro line stale rest _ _ h
  have htalk : e.hist.listing = [] := by simpa [hs, Talk] using h.talk
  exact goodTalk_putln (h.to htalk) (sentOk_of_number_eq_none rfl)

/-- Without UIDL the numbers are made up, each of them once. -/
theorem nodup_numbered (num : ℕ) : ((numbered num).map FetchPop3Mail.idx).Nodup := by
  have : (numbered num).map FetchPop3Mail.idx = List.range' 1 num := by
    simp [numbered, Function.comp_def]
  rw [this]
  exact List.nodup_range'

/-- They are those of the maildrop. -/
theorem mem_numbered {num : ℕ} {aux : FetchPop3Mail} (h : aux ∈ numbered num) :
    1 ≤ aux.idx ∧ aux.idx ≤ num := by
  obtain ⟨i, hi, rfl⟩ := List.mem_map.mp h
  rw [List.mem_range'_1] at hi
  exact ⟨hi.1, by dsimp only; omega⟩

/-- `pop3_state_first`, where the condition is needed. -/
theorem goodTalk_stateFirst (hs : fctx.state = .first)
    (hguard : statGuard q .first fctx.mail e)
    (hquiet : uidl = true → q = [] ∧ e.data.dropq = [])
    (h : Fresh uidl q fctx.state e) : GoodTalk conf uidl q (stateFirst fctx e) := by
  apply goodTalk_getOkay h
  intro line stale rest hbuf hok h
  have htalk : e.hist.listing = [] := by simpa [hs, Talk] using h.talk
  have hmode := h.mode
  have hsent := h.sent
  have hpresent := h.present
  split
  · next num n heq =>
    have hwant : num = 0 ∨ e.data.uidl = false → e.data.wantq = [] := fun hor =>
      hguard rfl (by simpa [unlistedStat, hbuf, hok, heq] using hor)
    dsimp only
    split_ifs with hzero htotal huidl
    · -- an empty maildrop: there is no number to be wrong about
      have hnil := hwant (.inl hzero)
      refine ⟨hmode, hsent, fun hu u hmem => ?_, ⟨?_, ?_, fun hu aux hmem => ?_⟩⟩
      · simp [hnil, (hquiet hu).1, fetched] at hmem
      · simp [hnil]
      · simp [hnil]
      · simp [hnil, outstanding, (hquiet hu).1, (hquiet hu).2, fetched] at hmem
    · have hnil := hwant (.inl hzero)
      refine goodTalk_putln ⟨hmode, hsent, fun hu u hmem => ?_, trivial⟩
        (sentOk_of_number_eq_none rfl)
      simp [hnil, (hquiet hu).1, fetched] at hmem
    · -- without UIDL the numbers are made up from those of this session
      have hoff : uidl ≠ true := by
        rw [← hmode]
        simpa using huidl
      have hnil := hwant (.inr (by simpa using huidl))
      refine ⟨hmode, hsent, fun hu => absurd hu hoff, ⟨?_, ?_, fun hu => absurd hu hoff⟩⟩
      · simpa [hnil] using nodup_numbered num
      · intro aux haux
        rw [hnil, List.nil_append] at haux
        exact mem_numbered haux
    · have hon : uidl = true := by
        rw [← hmode]
        simpa using huidl
      exact goodTalk_putln ⟨hmode, hsent, hpresent, ⟨hon, htalk, rfl⟩⟩
        (sentOk_of_number_eq_none rfl)
  · exact hsent

theorem goodTalk_stateCache1 (hs : fctx.state = .cache1) (h : Fresh uidl q fctx.state e) :
    GoodTalk conf uidl q (stateCache1 fctx e) := by
  apply goodTalk_getOkay h
  intro line stale rest _ _ h
  have htalk : uidl = true ∧ e.hist.listing = [] ∧ e.data.cur = 0 := by
    simpa [hs, Talk] using h.talk
  obtain ⟨huidl, hnil, hcur⟩ := htalk
  refine ⟨h.mode, h.sent, h.present, ⟨huidl, ?_, ?_⟩⟩
  · simp [hnil, Tree.empty]
  · simp [hnil, hcur]

/-- One more line of the UIDL reply. -/
theorem Table.insert {serverq : FetchPop3Tree} {listing : List FetchPop3Mail} {cur : ℕ}
    (h : Table serverq listing cur) {uid : List Char} (hnew : uid ∉ serverq.keys) :
    Table (serverq.insert ⟨uid, cur + 1⟩) (listing ++ [⟨uid, cur + 1⟩]) (cur + 1) where
  listed aux := by
    rw [Tree.mem_toList_insert hnew, h.listed, List.mem_append, List.mem_singleton]
    tauto
  numbered := by
    rw [List.map_append, h.numbered, List.range'_1_concat, Nat.add_comm 1 cur]
    rfl

/-- The lines of the listing, by induction on what is in the buffer. -/
theorem goodTalk_cache2Loop (hs : fctx.state = .cache2) (inbuf : List Received)
    (h : Fresh uidl q .cache2 e) : GoodTalk conf uidl q (cache2Loop fctx inbuf e) := by
  induction inbuf generalizing e with
  | nil =>
    unfold cache2Loop
    split_ifs with hfull
    · exact ⟨h.mode, h.sent, h.present, h.talk.1, h.talk.2, hfull⟩
    · show Fresh uidl q fctx.state { e with inbuf := [] }
      rw [hs]
      exact h.inbuf []
  | cons r rest ih =>
    unfold cache2Loop
    split_ifs with hfull
    · exact ⟨h.mode, h.sent, h.present, h.talk.1, h.talk.2, hfull⟩
    · cases r with
      | broken => exact h.sent
      | line s stale =>
        dsimp only
        split
        · next n heq =>
          split_ifs with hn
          · exact h.sent
          · split
            · exact h.sent
            · next c uid huid =>
              split_ifs with hbad
              · exact h.sent
              · -- a UID that this session has not listed before
                obtain rfl : n = e.data.cur + 1 := by simpa using hn
                have hnew : uid ∉ e.data.serverq.keys := by
                  simp only [Bool.or_eq_true, not_or, Bool.not_eq_true] at hbad
                  rw [← Tree.find_isSome, hbad.2]
                  simp
                exact ih ⟨h.mode, h.sent, h.present, h.talk.1, h.talk.2.insert hnew⟩
        · exact h.sent

/-- In a complete listing, the number determines the mail. -/
theorem Table.eq_of_idx_eq {serverq : FetchPop3Tree} {listing : List FetchPop3Mail} {cur : ℕ}
    (h : Table serverq listing cur) {a b : FetchPop3Mail} (ha : a ∈ serverq.toList)
    (hb : b ∈ serverq.toList) (hidx : a.idx = b.idx) : a = b := by
  have hnodup : (listing.map FetchPop3Mail.idx).Nodup := by
    rw [h.numbered]
    exact List.nodup_range'
  exact List.inj_on_of_nodup_map hnodup ((h.listed a).mp ha) ((h.listed b).mp hb) hidx

/-- A want queue of mails that the server lists is right for the session. -/
theorem Table.inSession {serverq : FetchPop3Tree} {listing : List FetchPop3Mail} {cur : ℕ}
    (h : Table serverq listing cur) {wantq : List FetchPop3Mail} (hnodup : wantq.Nodup)
    (hsub : ∀ aux ∈ wantq, aux ∈ serverq.toList) : InSession true wantq [] cur listing where
  nodup := List.Nodup.map_on
    (fun a ha b hb hidx => h.eq_of_idx_eq (hsub a ha) (hsub b hb) hidx) hnodup
  range aux haux := by
    have : aux.idx ∈ listing.map FetchPop3Mail.idx :=
      List.mem_map_of_mem ((h.listed aux).mp (hsub aux haux))
    rw [h.numbered, List.mem_range'_1] at this
    omega
  listed _ aux haux := by
    rw [List.append_nil] at haux
    exact (h.listed aux).mp (hsub aux haux)

section
variable {path : Bool} {disk : Option (List Char)}

/-- In the first session the mails are selected from the listing. -/
theorem goodTalk_cache3Select (hb : Base path disk q .idle fctx.mail e)
    (h : Fresh true q .cache3 e) (htotal : e.data.total = 0) :
    GoodTalk conf true q (cache3Select fctx e) := by
  obtain ⟨hq, hdrop⟩ := hb.shape.quiet rfl
  have hL := hb.listings_eq_nil htotal
  have hwant := (hb.nothing hL).2.1
  obtain ⟨-, htable, hfull⟩ := h.talk
  subst hq
  unfold cache3Select
  cases load e with
  | none => exact h.sent
  | some c =>
    dsimp only
    have hsub := selection_sublist e.data.only e.data.serverq (weed e.data.serverq c)
    have hperm := foldl_insertByIdx_perm
      (selection e.data.only e.data.serverq (weed e.data.serverq c)) e.data.wantq
    rw [hwant, List.append_nil] at hperm
    have hnext : Fresh true [] .next (buildWantq (weed e.data.serverq c) e) := by
      unfold buildWantq
      rw [hwant]
      refine ⟨h.mode, h.sent, fun _ u hu L hL' => ?_, ?_⟩
      · simp only [hL, List.nil_append, List.mem_singleton] at hL'
        subst hL'
        simp only [fetched, List.filterMap_nil, List.append_nil] at hu
        exact (hsub.map FetchPop3Mail.uid).subset ((hperm.map _).subset hu)
      · have hserver : e.data.serverq.toList.Nodup := List.Nodup.of_map _ e.data.serverq.nodup_keys
        have := htable.inSession (hperm.nodup_iff.mpr (hserver.sublist hsub))
          fun aux haux => hsub.subset (hperm.subset haux)
        rw [hfull] at this
        simpa [Talk, outstanding, fetched, hdrop] using this
    split_ifs
    · exact goodTalk_putln (hnext.to trivial) (sentOk_of_number_eq_none rfl)
    · exact hnext

/-- In a later one the mails that are left get the numbers of the new listing. -/
theorem goodTalk_cache3Reindex (hb : Base path disk q .idle fctx.mail e)
    (h : Fresh true q .cache3 e) : GoodTalk conf true q (cache3Reindex fctx e) := by
  obtain ⟨hq, hdrop⟩ := hb.shape.quiet rfl
  obtain ⟨-, htable, hfull⟩ := h.talk
  subst hq
  -- the want queue has every UID once, so what is left of it does too
  have huids : (e.data.wantq.map FetchPop3Mail.uid).Nodup := by
    obtain ⟨gone, -, hperm⟩ := hb.ledger.perm
    have hall := hperm.nodup_iff.mpr hb.ledger.nodup
    simp only [places, List.append_assoc] at hall
    exact (List.nodup_append.mp hall).1
  have hleft : ((reindex e.data.serverq e.data.wantq).map FetchPop3Mail.uid).Nodup := by
    rw [reindex_map_uid]
    exact huids.filter _
  refine ⟨h.mode, h.sent, fun _ u hu L hL => ?_, ?_⟩
  · simp only [fetched, List.filterMap_nil, List.append_nil, reindex_map_uid,
      List.mem_filter] at hu
    rcases List.mem_append.mp hL with hL | hL
    · exact h.present rfl u (by simpa [fetched] using hu.1) L hL
    · rw [List.mem_singleton.mp hL, ← Tree.find_isSome]
      exact hu.2
  · have := htable.inSession (List.Nodup.of_map _ hleft) fun aux haux => mem_reindex haux
    rw [hfull] at this
    simpa [Talk, outstanding, fetched, hdrop] using this

theorem goodTalk_stateCache3 (hs : fctx.state = .cache3)
    (hb : uidl = true → Base path disk q .idle fctx.mail e)
    (h : Fresh uidl q .cache3 e) : GoodTalk conf uidl q (stateCache3 fctx e) := by
  obtain rfl : uidl = true := h.talk.1
  refine getln_cases (P := GoodTalk conf true q) ?_ h.sent ?_
  · show Fresh true q fctx.state e
    rwa [hs]
  · intro line stale rest _
    have hb' : Base path disk q .idle fctx.mail { e with inbuf := rest } :=
      (hb rfl).unmoved rfl .intro
    split_ifs with hend htotal
    · exact h.sent
    · exact goodTalk_cache3Select hb' (h.inbuf rest) htotal
    · exact goodTalk_cache3Reindex hb' (h.inbuf rest)

end

/-- A number is sent that the listing of this session has. -/
theorem goodTalk_stateNext (hs : fctx.state = .next) (h : Fresh uidl q .next e) :
    GoodTalk conf uidl q (stateNext fctx e) := by
  have htalk : InSession uidl e.data.wantq (outstanding q e) e.data.num e.hist.listing := h.talk
  have hblock : GoodTalk conf uidl q (.block, fctx, e) := by
    show Fresh uidl q fctx.state e
    rwa [hs]
  unfold stateNext
  split
  · next aux dropq hdrop =>
    refine goodTalk_putln (h.to htalk) fun n hn => ⟨aux, rfl, Option.some.inj hn, fun hu => ?_⟩
    exact htalk.listed hu aux (by simp [outstanding, hdrop])
  · split
    · split_ifs
      · exact hblock
      · exact goodTalk_putln (h.to trivial) (sentOk_of_number_eq_none rfl)
    · next aux rest hwant =>
      split_ifs
      · exact goodTalk_putln (h.to trivial) (sentOk_of_number_eq_none rfl)
      · exact hblock
      · refine goodTalk_putln (h.to htalk) fun n hn =>
          ⟨aux, rfl, Option.some.inj hn, fun hu => ?_⟩
        exact htalk.listed hu aux (by simp [hwant])

/-- Taking mails out of the queues of a session leaves it in order. -/
theorem InSession.mono {wantq wantq' out out' : List FetchPop3Mail} {num : ℕ}
    {listing : List FetchPop3Mail} (h : InSession uidl wantq out num listing)
    (hwant : wantq'.Sublist wantq) (hout : wantq' ++ out' ⊆ wantq ++ out) :
    InSession uidl wantq' out' num listing where
  nodup := h.nodup.sublist (hwant.map _)
  range aux haux := h.range aux (hwant.subset haux)
  listed hu aux haux := h.listed hu aux (hout haux)

/-- `pop3_save` changes nothing the invariant is about. -/
theorem Fresh.save {s : State} {e' : Env} (h : Fresh uidl q s e)
    (hsave : save e = some e') : Fresh uidl q s e' := by
  unfold Pop3.save at hsave
  split_ifs at hsave
  · obtain rfl := Option.some.inj hsave
    exact h
  · obtain rfl := Option.some.inj hsave
    exact ⟨h.mode, h.sent, h.present, h.talk⟩

theorem goodTalk_stateDelete (hs : fctx.state = .delete) (h : Fresh uidl q .delete e) :
    GoodTalk conf uidl q (stateDelete fctx e) := by
  apply goodTalk_getOkay (by rwa [hs])
  intro line stale rest _ _ h
  rw [hs] at h
  have htalk : InSession uidl e.data.wantq (outstanding q e) e.data.num e.hist.listing := h.talk
  have hsent := h.sent
  split
  · exact hsent
  · next aux dropq hdrop =>
    have hdrop' : e.data.dropq = aux :: dropq := hdrop
    have hnext : Fresh uidl q .next
        { e with
          inbuf := rest
          data := { e.data with
            dropq := dropq
            cacheq := addCache aux e.data.cacheq
            committed := e.data.committed + 1 }
          hist := { e.hist with acked := e.hist.acked ++ [aux.uid] } } := by
      refine ⟨h.mode, h.sent, h.present, htalk.mono (.refl _) ?_⟩
      simp only [outstanding, hdrop']
      intro x hx
      simp only [List.mem_append, List.mem_cons] at hx ⊢
      tauto
    dsimp only at hnext ⊢
    split_ifs
    · cases hsave : save _ with
      | none => exact hsent
      | some e' => exact hnext.save hsave
    · exact hnext

/-- The next session has sent nothing. -/
theorem goodTalk_stateReconnect (h : Fresh uidl q fctx.state e) :
    GoodTalk conf uidl q (stateReconnect fctx e) := by
  apply goodTalk_getOkay h
  intro line stale rest _ _ h
  exact ⟨h.mode, h.sent, h.present, trivial⟩

theorem goodTalk_stateList (hs : fctx.state = .list)
    (hfetch : uidl = true → ∃ aux rest, e.data.wantq = aux :: rest ∧
      fctx.mail.auxdata = some aux)
    (h : Fresh uidl q .list e) : GoodTalk conf uidl q (stateList fctx e) := by
  apply goodTalk_getOkay (by rwa [hs])
  intro line stale rest _ _ h
  rw [hs] at h
  have htalk : InSession uidl e.data.wantq (outstanding q e) e.data.num e.hist.listing := h.talk
  split
  · next aux n size haux heq =>
    dsimp only
    split_ifs
    · exact h.sent
    · refine goodTalk_putln ⟨h.mode, h.sent, h.present, htalk⟩ fun k hk =>
        ⟨aux, rfl, Option.some.inj hk, fun hu => ?_⟩
      obtain ⟨aux', rest', hwant, haux'⟩ := hfetch hu
      obtain rfl : aux = aux' := Option.some.inj (haux.symm.trans haux')
      exact htalk.listed hu aux (by simp [hwant])
  · exact h.sent
  · exact h.sent

theorem goodTalk_stateRetr (hs : fctx.state = .retr) (h : Fresh uidl q .retr e) :
    GoodTalk conf uidl q (stateRetr fctx e) := by
  apply goodTalk_getOkay (by rwa [hs])
  intro line stale rest _ _ h
  rw [hs] at h
  split_ifs
  · exact h.sent
  · exact ⟨h.mode, h.sent, h.present, h.talk⟩

/-- `pop3_commit`: a mail moves out of the loop, or to the drop queue. -/
theorem Fresh.commit {s : State} (h : Fresh uidl q s e) {n : ℕ} {x : Mail FetchPop3Mail}
    (dec : Decision) (hx : q[n]? = some x) :
    Fetch.Committed (fetcher conf) (Fresh uidl (q.eraseIdx n) s) (AllSentOk uidl)
      (Pop3.commit { x with decision := dec } e) := by
  have hsent := h.sent
  unfold Pop3.commit
  cases haux : x.auxdata with
  | none => exact hsent
  | some aux =>
    have hfetched : (fetched q).Perm (aux :: fetched (q.eraseIdx n)) :=
      filterMap_eraseIdx_perm hx haux
    have hpresent : uidl = true → ∀ u ∈ (e.data.wantq ++ fetched (q.eraseIdx n)).map
        FetchPop3Mail.uid, ∀ L ∈ e.hist.listings, u ∈ L := by
      intro hu u hmem
      refine h.present hu u (List.map_subset _ ?_ hmem)
      exact List.append_subset.mpr ⟨List.subset_append_left _ _, fun y hy =>
        List.mem_append_right _ (hfetched.symm.subset (List.mem_cons_of_mem _ hy))⟩
    simp only
    cases dec with
    | drop =>
      refine ⟨h.mode, h.sent, hpresent, ?_⟩
      have hsub : e.data.wantq ++ (fetched (q.eraseIdx n) ++ (e.data.dropq ++ [aux]))
          ⊆ e.data.wantq ++ outstanding q e := by
        intro y hy
        have := hfetched.mem_iff (a := y)
        simp only [outstanding, List.mem_append, List.mem_cons, List.not_mem_nil, or_false]
          at this hy ⊢
        tauto
      cases s <;> first | exact h.talk | exact InSession.mono h.talk (.refl _) hsub
    | keep =>
      have hkeep : Fresh uidl (q.eraseIdx n) s
          { e with
            data := { e.data with
              cacheq := addCache aux e.data.cacheq
              committed := e.data.committed + 1 }
            hist := { e.hist with kept := e.hist.kept ++ [aux.uid] } } := by
        refine ⟨h.mode, h.sent, hpresent, ?_⟩
        have hsub : e.data.wantq ++ (fetched (q.eraseIdx n) ++ e.data.dropq)
            ⊆ e.data.wantq ++ outstanding q e := by
          intro y hy
          have := hfetched.mem_iff (a := y)
          simp only [outstanding, List.mem_append, List.mem_cons] at this hy ⊢
          tauto
        cases s <;> first | exact h.talk | exact InSession.mono h.talk (.refl _) hsub
      split_ifs
      · cases hsave : Pop3.save _ with
        | none => exact hsent
        | some e' => exact hkeep.save hsave
      · exact hkeep

/-- The lines of a mail, by induction on what is in the buffer. -/
theorem goodTalk_lineLoop (hs : fctx.state = .line)
    (inbuf : List Received) (hfetch : uidl = true → ∃ aux rest,
      e.data.wantq = aux :: rest ∧ m.auxdata = some aux)
    (h : Fresh uidl q .line e) : GoodTalk conf uidl q (lineLoop conf fctx inbuf m e) := by
  induction inbuf generalizing m e with
  | nil =>
    show Fresh uidl q fctx.state { e with inbuf := [] }
    rw [hs]
    exact h.inbuf []
  | cons r rest ih =>
    cases r with
    | broken => exact h.sent
    | line s stale =>
      rw [lineLoop]
      split_ifs with hdot hflushing hfault
      · cases haux : m.auxdata with
        | none => exact h.sent
        | some aux =>
          -- the mail moves from the want queue to the loop
          have hmoved : ∀ x : Mail FetchPop3Mail, x.auxdata = some aux →
              Fresh uidl (q ++ [x]) .next
                { e with
                  inbuf := rest
                  data := { e.data with wantq := e.data.wantq.erase aux } } := by
            intro x hx
            have hmem : uidl = true → aux ∈ e.data.wantq := fun hu => by
              obtain ⟨aux', rest', hwant, haux'⟩ := hfetch hu
              rw [hwant, Option.some.inj (haux.symm.trans haux')]
              exact List.mem_cons_self
            have hfetched : fetched (q ++ [x]) = fetched q ++ [aux] := by
              simp [fetched, hx]
            have htalk : InSession uidl e.data.wantq (outstanding q e) e.data.num
              e.hist.listing := h.talk
            refine ⟨h.mode, h.sent, fun hu u hmem' => ?_, htalk.nodup.sublist
              (List.erase_sublist.map _), fun y hy => htalk.range y (List.mem_of_mem_erase hy),
              fun hu y hy => htalk.listed hu y ?_⟩
            · refine h.present hu u (List.map_subset _ ?_ hmem')
              intro y hy
              rw [hfetched] at hy
              simp only [List.mem_append, List.mem_singleton] at hy ⊢
              rcases hy with hy | hy | rfl
              · exact .inl (List.mem_of_mem_erase hy)
              · exact .inr hy
              · exact .inl (hmem hu)
            · rw [outstanding, hfetched] at hy
              simp only [outstanding, List.mem_append, List.mem_singleton] at hy ⊢
              rcases hy with hy | (hy | rfl) | hy
              · exact .inl (List.mem_of_mem_erase hy)
              · exact .inr (.inl hy)
              · exact .inl (hmem hu)
              · exact .inr (.inr hy)
          exact Outcome.mail h.sent (fun x hx => hmoved x (hx.trans haux))
            fun q' n x h' hx => h'.commit .drop hx
      · exact ih hfetch h
      · exact h.sent
      · exact ih hfetch ⟨h.mode, h.sent, h.present, h.talk⟩

theorem goodTalk_stateQuit (h : Fresh uidl q fctx.state e) :
    GoodTalk conf uidl q (stateQuit fctx e) := by
  apply goodTalk_getOkay h
  intro line stale rest _ _ h
  exact h.sent

theorem goodTalk_state {path : Bool} {disk : Option (List Char)}
    (hguard : statGuard q fctx.state fctx.mail e)
    (hb : uidl = true → Base path disk q fctx.state.phase fctx.mail e)
    (h : Fresh uidl q fctx.state e) : GoodTalk conf uidl q (state conf fctx e) := by
  obtain ⟨s, f, m⟩ := fctx
  cases s with
  | init => exact goodTalk_stateInit h
  | connect => exact goodTalk_stateConnect h
  | connected => exact goodTalk_stateConnected rfl h
  | user => exact goodTalk_stateUser rfl h
  | stat => exact goodTalk_stateStat rfl h
  | first => exact goodTalk_stateFirst rfl hguard (fun hu => (hb hu).shape.quiet rfl) h
  | cache1 => exact goodTalk_stateCache1 rfl h
  | cache2 => exact goodTalk_cache2Loop rfl _ h
  | cache3 => exact goodTalk_stateCache3 rfl hb h
  | next => exact goodTalk_stateNext rfl h
  | delete => exact goodTalk_stateDelete rfl h
  | reconnect => exact goodTalk_stateReconnect h
  | list => exact goodTalk_stateList rfl (fun hu => (hb hu).shape.fetch rfl) h
  | retr => exact goodTalk_stateRetr rfl h
  | line => exact goodTalk_lineLoop rfl _ (fun hu => (hb hu).shape.fetch rfl) h
  | quit => exact goodTalk_stateQuit h

end

/-! ## The invariant of the fetch loop -/

/-- A commit sends nothing. -/
theorem commit_sent (m : Mail FetchPop3Mail) (e : Env) :
    (commit m e).2.2.hist.sent = e.hist.sent := by
  unfold commit
  split
  · rfl
  · split
    · rfl
    · dsimp only
      split_ifs
      · unfold save
        split_ifs <;> rfl
      · rfl

/-- `Fresh`, with `Base` under it when there is UIDL, as an invariant of the runs that meet
the condition. -/
def session (conf : Conf) (uidl path : Bool) (disk : Option (List Char)) :
    LoopInv (fetcher conf) conf statGuard noCommitGuard where
  run q c e := (uidl = true → Base path disk q c.state.phase c.mail e) ∧ Fresh uidl q c.state e
  done _ e := AllSentOk uidl e
  dead := AllSentOk uidl
  run_dead h := h.2.sent
  done_dead h := h
  dead_abort h := h
  dead_auxfree h := h
  run_flags _ _ h := h
  run_input i h := by
    refine ⟨fun hu => (base conf path disk).run_input i (h.1 hu), ?_⟩
    cases i <;> exact ⟨h.2.mode, h.2.sent, h.2.present, h.2.talk⟩
  done_input i h := by cases i <;> exact h
  state {q c e} h hguard hempty := by
    have htalk : GoodTalk conf uidl q (Pop3.state conf c e) := goodTalk_state hguard h.1 h.2
    cases uidl with
    | true =>
      exact ((good_state hempty (h.1 rfl)).and htalk).mono
        (fun _ _ _ h => ⟨fun _ => h.1, h.2⟩) (fun _ _ h => h) (fun _ h => h)
    | false =>
      exact htalk.mono (fun _ _ _ h => ⟨by simp, h⟩) (fun _ _ h => h) (fun _ h => h)
  commit {q c e n x} dec h hx _ := by
    have hfresh : Committed (fetcher conf) (Fresh uidl (q.eraseIdx n) c.state) (AllSentOk uidl)
        (Pop3.commit { x with decision := dec } e) := h.2.commit dec hx
    cases uidl with
    | true =>
      exact (((h.1 rfl).commit dec hx).and hfresh).mono
        (fun _ h => ⟨fun _ => h.1, h.2⟩) fun _ h => h
    | false => exact hfresh.mono (fun _ h => ⟨by simp, h⟩) fun _ h => h
  commit_done {q e n x} dec h hx _ := by
    have hsent : AllSentOk uidl (Pop3.commit { x with decision := dec } e).2.2 := by
      unfold AllSentOk
      rw [commit_sent]
      exact h
    exact Committed.intro hsent hsent

section
variable {conf : Conf} {poll path : Bool} {only : FetchOnly} {uidl apop : Bool}
  {user pass : List Char} {disk : Option (List Char)} {l : Loop Env State FetchPop3Mail}

/-- `Fresh` and `Base` hold in every state of a run that meets the condition. -/
theorem holds_session
    (h : Lib.Runs.Reach (step (fetcher conf) conf) (stepGuard conf statGuard noCommitGuard)
      (begin conf poll path only uidl apop user pass disk) l) :
    (session conf uidl path disk).Holds l := by
  refine LoopInv.holds_reach ⟨fun hu => ?_, rfl, by simp, by simp, trivial⟩ h
  subst hu
  have : (base conf path disk).Holds (begin conf poll path only true apop user pass disk) :=
    holds_base .refl
  exact this.run ⟨rfl, rfl⟩

/-- The condition leaves nothing out: an answer that does not meet it, with something
wanted and counted, makes the want queue wrong for the session. -/
theorem not_inSession_of_unlistedStat {fctx : Ctx} {e : Env} {out listing : List FetchPop3Mail}
    (hstat : unlistedStat e = true) (hwant : e.data.wantq ≠ []) (htotal : e.data.total ≠ 0) :
    (stateFirst fctx e).2.1.state = .next ∧
      ¬ InSession uidl (stateFirst fctx e).2.2.data.wantq out
        (stateFirst fctx e).2.2.data.num listing := by
  unfold unlistedStat at hstat
  split at hstat
  · next line stale rest hbuf =>
    rw [Bool.and_eq_true] at hstat
    obtain ⟨hok, hstat⟩ := hstat
    split at hstat
    · next num n heq =>
      obtain ⟨aux, wantq, hcons⟩ := List.exists_cons_of_ne_nil hwant
      have haux : aux ∈ e.data.wantq := by
        rw [hcons]
        exact List.mem_cons_self
      by_cases hzero : num = 0
      · have hres : stateFirst fctx e = (.again, { fctx with state := .next },
            { e with
              inbuf := rest
              data := { e.data with num := num, cur := 0 }
              hist := { e.hist with listings := e.hist.listings ++ [[]] } }) := by
          simp [stateFirst, getOkay, getln, hbuf, hok, heq, hzero, htotal]
        rw [hres]
        refine ⟨rfl, fun h => ?_⟩
        have := h.range aux haux
        dsimp only at this
        omega
      · have huidl : e.data.uidl = false := by simpa [hzero] using hstat
        have hres : stateFirst fctx e = (.again, { fctx with state := .next },
            { e with
              inbuf := rest
              data := { e.data with
                num := num
                cur := 0
                wantq := e.data.wantq ++ numbered num
                total := e.data.total + num } }) := by
          simp [stateFirst, getOkay, getln, hbuf, hok, heq, hzero, huidl]
        rw [hres]
        refine ⟨rfl, fun h => ?_⟩
        -- the number of the old entry is out of range, or it is there a second time
        have hrange := h.range aux (List.mem_append_left _ haux)
        have hnodup := h.nodup
        rw [List.map_append] at hnodup
        have hmem : aux.idx ∈ (numbered num).map FetchPop3Mail.idx := by
          simp only [numbered, List.map_map, List.mem_map, List.mem_range'_1,
            Function.comp_apply]
          exact ⟨aux.idx, by dsimp only at hrange; omega, rfl⟩
        exact List.disjoint_of_nodup_append hnodup (List.mem_map_of_mem haux) hmem
    · cases hstat
  · cases hstat

end

end Fdm.Pop3
