import Fdm.Mbox.Rewrite

/-!
# The mbox fetcher at work

Which mails the fetcher has handed out of each mbox, and where they are now (`Sound`); and
what `fetch_mbox_save` then makes of the files (`saveAll_ok`). From these, what a fetch that
ends well leaves behind (`Final`).
-/

namespace Fdm.Mbox

open Fdm.Fetch Lib.Lines

/-- The mails of one mbox among others. -/
def ofMbox (i : ℕ) (as : List FetchMboxMail) : List FetchMboxMail := as.filter fun a => a.fmbox = i

/-- What stands for the mails of the queue. -/
def auxes (q : List (Mail FetchMboxMail)) : List FetchMboxMail := q.filterMap Mail.auxdata

/-- The mails of one mbox, in two lists. -/
theorem ofMbox_append (i : ℕ) (as bs : List FetchMboxMail) :
    ofMbox i (as ++ bs) = ofMbox i as ++ ofMbox i bs := List.filter_append ..

theorem ofMbox_singleton (i : ℕ) (a : FetchMboxMail) :
    ofMbox i [a] = if a.fmbox = i then [a] else [] := by
  by_cases h : a.fmbox = i <;> simp [ofMbox, h]

/-! ## What is saved -/

/-- What is left of an mbox that no mail refers to any more. -/
theorem freeAll_ok {i : ℕ} {fmbox : FetchMboxMbox} {e e' : Env} (h : freeAll i fmbox e = .ok e') :
    e'.files = e.files ∧ e'.hist = e.hist ∧
      (e'.data.kept.map Kept.aux = e.data.kept.map Kept.aux) ∧
      ∀ j, j ≠ i → e'.data.fmboxes[j]? = e.data.fmboxes[j]? := by
  unfold freeAll at h
  dsimp only at h
  split_ifs at h
  obtain rfl := Saved.ok.inj h
  refine ⟨rfl, rfl, ?_, fun j hj => ?_⟩
  · show (e.data.kept.map _).map Kept.aux = _
    rw [List.map_map]
    refine List.map_congr_left fun k _ => ?_
    show (if k.aux.fmbox = i then { k with freed := true } else k).aux = k.aux
    split_ifs <;> rfl
  · show (e.data.fmboxes.set i _)[j]? = _
    rw [List.getElem?_set_ne (Ne.symm hj)]

/-- The new content of an mbox, with its counters. -/
def rewrite (fmbox : FetchMboxMbox) (mine : List FetchMboxMail) : Option (List Char) :=
  if fmbox.reference = 0 then
    if fmbox.total ≠ 0 then some [] else none
  else if fmbox.reference = fmbox.total then none
  else some (mine.flatMap (entryBytes fmbox.base))

/-- `fetch_mbox_save` changes its own mbox and leaves the others alone. -/
structure SavedOne (i : ℕ) (fmbox : FetchMboxMbox) (e e' : Env) : Prop where
  mine : e'.files fmbox.path =
    (rewrite fmbox (ofMbox i (e.data.kept.map Kept.aux))).or (e.files fmbox.path)
  others : ∀ p, p ≠ fmbox.path → e'.files p = e.files p
  hist : e'.hist = e.hist
  kept : ∀ j, j ≠ i → ofMbox j (e'.data.kept.map Kept.aux) = ofMbox j (e.data.kept.map Kept.aux)
  fmboxes : ∀ j, j ≠ i → e'.data.fmboxes[j]? = e.data.fmboxes[j]?

/-- Where `fetch_mbox_save` succeeds, it has rewritten or left its own mbox as `rewrite` says. -/
theorem save_ok {i : ℕ} {fmbox : FetchMboxMbox} {e e' : Env} (h : save i fmbox e = .ok e') :
    SavedOne i fmbox e e' := by
  have hnone : ∀ {e'}, freeAll i fmbox e = .ok e' →
      rewrite fmbox (ofMbox i (e.data.kept.map Kept.aux)) = none → SavedOne i fmbox e e' := by
    intro e' hfree hrewrite
    obtain ⟨hfiles, hhist, hkept, hfmboxes⟩ := freeAll_ok hfree
    refine ⟨?_, fun p _ => by rw [hfiles], hhist, fun j _ => by rw [hkept], hfmboxes⟩
    rw [hrewrite, hfiles, Option.none_or]
  unfold save at h
  by_cases hreference : fmbox.reference = 0
  · rw [if_pos hreference] at h
    by_cases htotal : fmbox.total ≠ 0
    · rw [if_pos htotal] at h
      split_ifs at h
      obtain ⟨hfiles, hhist, hkept, hfmboxes⟩ := freeAll_ok h
      refine ⟨?_, fun p hp => ?_, hhist, fun j _ => by rw [hkept], hfmboxes⟩
      · rw [hfiles, rewrite, if_pos hreference, if_pos htotal]
        exact Function.update_self ..
      · rw [hfiles]
        exact Function.update_of_ne hp ..
    · rw [if_neg htotal] at h
      exact hnone h (by rw [rewrite, if_pos hreference, if_neg htotal])
  · rw [if_neg hreference] at h
    by_cases htotal : fmbox.reference = fmbox.total
    · rw [if_pos htotal] at h
      exact hnone h (by rw [rewrite, if_neg hreference, if_pos htotal])
    · rw [if_neg htotal] at h
      split_ifs at h
      obtain ⟨hfiles, hhist, hkept, hfmboxes⟩ := freeAll_ok h
      refine ⟨?_, fun p hp => ?_, hhist, fun j hj => ?_, hfmboxes⟩
      · rw [hfiles, rewrite, if_neg hreference, if_neg htotal]
        exact Function.update_self ..
      · rw [hfiles]
        exact Function.update_of_ne hp ..
      · -- the entries taken off the list are not those of the others
        rw [hkept]
        show ((e.data.kept.filter _).map Kept.aux).filter _ = (e.data.kept.map Kept.aux).filter _
        rw [List.filter_map, List.filter_map, List.filter_filter]
        congr 1
        refine List.filter_congr fun k _ => ?_
        by_cases hk : k.aux.fmbox = j
        · simp [hk, hj]
        · simp [hk]

/-- Saving some mailboxes leaves the files of the others. -/
theorem saveAll_others {is : List ℕ} {e e' : Env} (hnodup : is.Nodup) (h : saveAll is e = .ok e') :
    e'.hist = e.hist ∧
      ∀ p, (∀ i ∈ is, ∀ fmbox, e.data.fmboxes[i]? = some fmbox → fmbox.path ≠ p) →
        e'.files p = e.files p := by
  induction is generalizing e with
  | nil =>
    obtain rfl := Saved.ok.inj h
    exact ⟨rfl, fun _ _ => rfl⟩
  | cons i is ih =>
    rw [List.nodup_cons] at hnodup
    unfold saveAll at h
    cases hfmbox : e.data.fmboxes[i]? with
    | none => simp [hfmbox] at h
    | some fmbox =>
      rw [hfmbox] at h
      cases hsave : save i fmbox e with
      | error e₁ => simp [hsave] at h
      | fatal e₁ => simp [hsave] at h
      | ok e₁ =>
        have hone := save_ok hsave
        simp only [hsave] at h
        obtain ⟨hhist, hfiles⟩ := ih hnodup.2 h
        refine ⟨hhist.trans hone.hist, fun p hp => ?_⟩
        rw [hfiles p, hone.others p]
        · exact (hp i List.mem_cons_self fmbox hfmbox).symm
        · intro j hj fmbox' hfmbox'
          have hne : j ≠ i := fun heq => hnodup.1 (heq ▸ hj)
          rw [hone.fmboxes j hne] at hfmbox'
          exact hp j (List.mem_cons_of_mem i hj) fmbox' hfmbox'

/-- What an mbox gets when no other one has its path. -/
theorem saveAll_mine {is : List ℕ} {e e' : Env} (hnodup : is.Nodup) (h : saveAll is e = .ok e')
    {i : ℕ} {fmbox : FetchMboxMbox} (hi : i ∈ is) (hfmbox : e.data.fmboxes[i]? = some fmbox)
    (hpath : ∀ j ∈ is, ∀ fmbox', e.data.fmboxes[j]? = some fmbox' →
      fmbox'.path = fmbox.path → j = i) :
    e'.files fmbox.path =
      (rewrite fmbox (ofMbox i (e.data.kept.map Kept.aux))).or (e.files fmbox.path) := by
  induction is generalizing e with
  | nil => cases hi
  | cons j is ih =>
    have hall := hnodup
    rw [List.nodup_cons] at hnodup
    unfold saveAll at h
    cases hfmbox' : e.data.fmboxes[j]? with
    | none => simp [hfmbox'] at h
    | some fmbox' =>
      rw [hfmbox'] at h
      cases hsave : save j fmbox' e with
      | error e₁ => simp [hsave] at h
      | fatal e₁ => simp [hsave] at h
      | ok e₁ =>
        have hone := save_ok hsave
        simp only [hsave] at h
        by_cases hj : j = i
        · subst hj
          obtain rfl : fmbox = fmbox' := Option.some.inj (hfmbox.symm.trans hfmbox')
          rw [← hone.mine]
          refine (saveAll_others hnodup.2 h).2 _ fun k hk fmbox₁ hfmbox₁ hp => ?_
          have hne : k ≠ j := fun heq => hnodup.1 (heq ▸ hk)
          rw [hone.fmboxes k hne] at hfmbox₁
          exact hne (hpath k (List.mem_cons_of_mem j hk) fmbox₁ hfmbox₁ hp)
        · have hne : fmbox.path ≠ fmbox'.path := fun hp =>
            hj (hpath j List.mem_cons_self fmbox' hfmbox' hp.symm)
          have hmem : i ∈ is := (List.mem_cons.mp hi).resolve_left (Ne.symm hj)
          have hsame : e₁.data.fmboxes[i]? = some fmbox := by
            rw [hone.fmboxes i (Ne.symm hj), hfmbox]
          rw [ih hnodup.2 h hmem hsame, hone.kept i (Ne.symm hj), hone.others _ hne]
          intro k hk fmbox₁ hfmbox₁ hp
          by_cases hkj : k = j
          · exact absurd hk (hkj ▸ hnodup.1)
          · rw [hone.fmboxes k hkj] at hfmbox₁
            exact hpath k (List.mem_cons_of_mem j hk) fmbox₁ hfmbox₁ hp

/-! ## What is read -/

/-- How far an mbox is read. -/
inductive Progress
  | closed
  | upto (off : ℕ)
  | finished

/-- How many of `n` mboxes are read to the end. -/
def State.finished (s : State) (index n : ℕ) : ℕ :=
  match s with
  | .init => 0
  | .open | .mail => index
  | .next => min (index + 1) n
  | .exit => n

/-- How far the `i`-th of `n` mboxes is read. -/
def progress (s : State) (index off n i : ℕ) : Progress :=
  if i < s.finished index n then .finished
  else if s = .mail ∧ i = index then .upto off
  else .closed

/-- The mails handed out of an mbox, by how far it is read. -/
def ReadTo (files : List Char → Option (List Char)) (fetched : List FetchMboxMail) (i : ℕ)
    (fmbox : FetchMboxMbox) : Progress → Prop
  | .closed => fmbox.base = [] ∧ ofMbox i fetched = []
  | .upto off => files fmbox.path = some fmbox.base ∧ off ≤ fmbox.base.length ∧
      ofMbox i fetched ++ (mails fmbox.base i off).map Prod.fst
        = (mails fmbox.base i 0).map Prod.fst
  | .finished => files fmbox.path = some fmbox.base ∧
      ofMbox i fetched = (mails fmbox.base i 0).map Prod.fst

/-- The counters of an mbox. -/
structure Counted (paths : List (List Char)) (q : List (Mail FetchMboxMail)) (hist : History)
    (i : ℕ) (fmbox : FetchMboxMbox) : Prop where
  path : paths[i]? = some fmbox.path
  reference : fmbox.reference = (ofMbox i (hist.kept ++ auxes q)).length
  total : fmbox.total = (ofMbox i hist.fetched).length

/-- What holds while the fetch goes on. -/
structure Sound (paths : List (List Char)) (files : List Char → Option (List Char))
    (q : List (Mail FetchMboxMail)) (s : State) (e : Env) : Prop where
  disk : e.files = files
  conf : e.data.paths = paths
  init : s = .init → e.hist = {} ∧ q = []
  made : s ≠ .init → e.data.fmboxes.length = paths.length
  index : s = .open ∨ s = .mail → e.data.index < e.data.fmboxes.length
  next : s = .next → e.data.index ≤ e.data.fmboxes.length
  exit : s = .exit → q = []
  kept : s ≠ .init → e.data.kept.map Kept.aux = e.hist.kept
  places : (e.hist.kept ++ e.hist.dropped ++ auxes q).Perm e.hist.fetched
  queued : ∀ x ∈ q, x.auxdata.isSome
  counted : s ≠ .init → ∀ i fmbox, e.data.fmboxes[i]? = some fmbox →
    Counted paths q e.hist i fmbox
  read : s ≠ .init → ∀ i fmbox, e.data.fmboxes[i]? = some fmbox →
    ReadTo files e.hist.fetched i fmbox
      (progress s e.data.index e.data.off e.data.fmboxes.length i)

/-- What a fetch that has ended leaves behind. -/
def Final (paths : List (List Char)) (files : List Char → Option (List Char)) (e : Env) : Prop :=
  ∀ i path, paths[i]? = some path → (∀ j, paths[j]? = some path → j = i) →
    ∃ old, files path = some old ∧
      e.files path = some (saved old (ofMbox i e.hist.kept) (ofMbox i e.hist.dropped)) ∧
      (ofMbox i e.hist.kept ++ ofMbox i e.hist.dropped).Perm ((mails old i 0).map Prod.fst)

section
variable {conf : Conf} {paths : List (List Char)} {files : List Char → Option (List Char)}
  {q : List (Mail FetchMboxMail)} {c : Ctx} {e : Env} {s : State}

/-- The state function owes this. -/
def Good (conf : Conf) (paths : List (List Char)) (files : List Char → Option (List Char))
    (q : List (Mail FetchMboxMail)) : Result → Prop :=
  Outcome conf (fetcher conf) (fun q c e => Sound paths files q c.state e)
    (fun q e => q = [] ∧ Final paths files e) (fun _ => True) q

/-- To another state, with the mboxes as they are. -/
theorem Sound.move {s' : State} (index off : ℕ) (h : Sound paths files q s e) (hs : s ≠ .init)
    (hs' : s' ≠ .init) (hindex : s' = .open ∨ s' = .mail → index < e.data.fmboxes.length)
    (hnext : s' = .next → index ≤ e.data.fmboxes.length) (hexit : s' = .exit → q = [])
    (hread : ∀ i fmbox, e.data.fmboxes[i]? = some fmbox →
      ReadTo files e.hist.fetched i fmbox (progress s' index off e.data.fmboxes.length i)) :
    Sound paths files q s' { e with data := { e.data with index := index, off := off } } where
  disk := h.disk
  conf := h.conf
  init hinit := absurd hinit hs'
  made _ := h.made hs
  index := hindex
  next := hnext
  exit := hexit
  kept _ := h.kept hs
  places := h.places
  queued := h.queued
  counted _ := h.counted hs
  read _ := hread

/-- An empty file has no mail. -/
theorem mails_nil (i : ℕ) : mails [] i 0 = [] :=
  show mails [] i ([] : List Char).length = [] from mails_end

/-- `fetch_mbox_state_init` keeps the invariant: nothing has been read. -/
theorem good_init (h : Sound paths files q .init e) : Good conf paths files q (stateInit c e) := by
  obtain ⟨hhist, rfl⟩ := h.init rfl
  unfold stateInit
  split_ifs with hfault hpaths
  · trivial
  · trivial
  · have hlen : 0 < e.data.paths.length := List.length_pos_iff.mpr hpaths
    have hmade : ∀ (i : ℕ) (fmbox : FetchMboxMbox),
        (e.data.paths.map fun path => ({ path := path } : FetchMboxMbox))[i]? = some fmbox →
        ∃ path, e.data.paths[i]? = some path ∧ fmbox = { path := path } := by
      intro i fmbox hfmbox
      rw [List.getElem?_map, Option.map_eq_some_iff] at hfmbox
      obtain ⟨path, hpath, hfmbox⟩ := hfmbox
      exact ⟨path, hpath, hfmbox.symm⟩
    constructor
    · exact h.disk
    · exact h.conf
    · exact nofun
    · intro _
      rw [← h.conf]
      exact List.length_map ..
    · intro _
      show 0 < (e.data.paths.map _).length
      rwa [List.length_map]
    · exact nofun
    · exact nofun
    · intro _
      rw [hhist]
      rfl
    · rw [hhist]
      exact .refl _
    · simp
    · intro _ i fmbox hfmbox
      obtain ⟨path, hpath, rfl⟩ := hmade i fmbox hfmbox
      rw [hhist]
      exact ⟨by rwa [← h.conf], rfl, rfl⟩
    · intro _ i fmbox hfmbox
      obtain ⟨path, hpath, rfl⟩ := hmade i fmbox hfmbox
      rw [hhist]
      exact ⟨rfl, rfl⟩

/-- The mboxes other than the current one are read as far in all states that read it. -/
theorem progress_other {index n i : ℕ} (off off' : ℕ) (hi : i ≠ index) (hindex : index < n) :
    progress .open index off n i = progress .mail index off' n i ∧
      progress .open index off n i = progress .next index off' n i := by
  have hiff : i < min (index + 1) n ↔ i < index := by omega
  simp [progress, State.finished, hi, hiff]

theorem progress_open (index off n : ℕ) : progress .open index off n index = .closed := by
  simp [progress, State.finished]

theorem progress_mail (index off n : ℕ) : progress .mail index off n index = .upto off := by
  simp [progress, State.finished]

/-- Behind its last mail a mailbox is finished. -/
theorem progress_next {index off n : ℕ} (hindex : index < n) :
    progress .next index off n index = .finished := by
  have hlt : index < min (index + 1) n := by omega
  simp [progress, State.finished, hlt]

/-- The end of an mbox. -/
theorem good_finish {fmbox : FetchMboxMbox} (hs : s = .open ∨ s = .mail)
    (h : Sound paths files q s e) (hfmbox : e.data.fmboxes[e.data.index]? = some fmbox)
    (hread : ReadTo files e.hist.fetched e.data.index fmbox .finished) :
    Sound paths files q .next e := by
  have hne : s ≠ .init := by rcases hs with rfl | rfl <;> exact nofun
  have hindex := h.index hs
  refine h.move e.data.index e.data.off hne nofun
    (by rintro (hs | hs) <;> cases hs) (fun _ => Nat.le_of_lt hindex) nofun
    fun i fmbox' hfmbox' => ?_
  have hold := h.read hne i fmbox' hfmbox'
  by_cases hi : i = e.data.index
  · subst hi
    obtain rfl : fmbox = fmbox' := Option.some.inj (hfmbox.symm.trans hfmbox')
    rw [progress_next hindex]
    exact hread
  · rcases hs with rfl | rfl
    · rw [← (progress_other _ _ hi hindex).2]
      exact hold
    · rw [← (progress_other 0 _ hi hindex).2, (progress_other _ _ hi hindex).1]
      exact hold

/-- The mboxes after a change of one of them. -/
theorem getElem?_setFmbox {i j : ℕ} {fmbox fmbox' : FetchMboxMbox}
    (h : (setFmbox i fmbox e).data.fmboxes[j]? = some fmbox') :
    j = i ∧ fmbox' = fmbox ∨ j ≠ i ∧ e.data.fmboxes[j]? = some fmbox' := by
  have hset : (e.data.fmboxes.set i fmbox)[j]? = some fmbox' := h
  by_cases hj : j = i
  · subst hj
    have hlt : j < e.data.fmboxes.length := by
      have hlen := (List.getElem?_eq_some_iff.mp hset).1
      rwa [List.length_set] at hlen
    rw [List.getElem?_set_self hlt] at hset
    exact Or.inl ⟨rfl, (Option.some.inj hset).symm⟩
  · rw [List.getElem?_set_ne (Ne.symm hj)] at hset
    exact Or.inr ⟨hj, hset⟩

/-- Changing a mailbox makes no new one. -/
theorem length_setFmbox {i : ℕ} {fmbox : FetchMboxMbox} :
    (setFmbox i fmbox e).data.fmboxes.length = e.data.fmboxes.length := List.length_set ..

/-- `fetch_mbox_state_open` keeps it, with the file as it was found. -/
theorem good_open (h : Sound paths files q .open e) :
    Good conf paths files q (stateOpen c e) := by
  have hindex := h.index (Or.inl rfl)
  unfold stateOpen
  cases hfmbox : e.data.fmboxes[e.data.index]? with
  | none => trivial
  | some fmbox =>
    have hclosed := h.read nofun _ _ hfmbox
    rw [progress_open] at hclosed
    obtain ⟨hbase, hnone⟩ := hclosed
    dsimp only
    cases hfile : e.files fmbox.path with
    | none => trivial
    | some base =>
      rw [h.disk] at hfile
      dsimp only
      split_ifs with hfault hempty hsmall hfrom
      · trivial
      · refine good_finish (Or.inl rfl) h hfmbox ⟨?_, ?_⟩
        · rw [hfile, hempty, hbase]
        · rw [hnone, hbase, mails_nil]
          rfl
      · trivial
      · constructor
        · exact h.disk
        · exact h.conf
        · exact nofun
        · intro _
          exact length_setFmbox.trans (h.made nofun)
        · intro _
          exact length_setFmbox.symm ▸ hindex
        · exact nofun
        · exact nofun
        · intro _
          exact h.kept nofun
        · exact h.places
        · exact h.queued
        · intro _ i fmbox' hfmbox'
          rcases getElem?_setFmbox hfmbox' with ⟨rfl, rfl⟩ | ⟨-, hold⟩
          · obtain ⟨hpath, hreference, htotal⟩ := h.counted nofun _ _ hfmbox
            exact ⟨hpath, hreference, htotal⟩
          · exact h.counted nofun i fmbox' hold
        · intro _ i fmbox' hfmbox'
          rcases getElem?_setFmbox hfmbox' with ⟨rfl, rfl⟩ | ⟨hi, hold⟩
          · show ReadTo _ _ _ _ (progress .mail e.data.index 0 _ e.data.index)
            rw [progress_mail]
            refine ⟨hfile, Nat.zero_le _, ?_⟩
            show ofMbox e.data.index e.hist.fetched ++ _ = _
            rw [hnone, List.nil_append]
          · show ReadTo _ _ _ _ (progress .mail e.data.index 0 _ i)
            rw [length_setFmbox, ← (progress_other _ _ hi hindex).1]
            exact h.read nofun i fmbox' hold
      · trivial

/-- Outside the mail state only the number of mboxes read counts. -/
theorem progress_congr {s' : State} {index index' off n i : ℕ} (hs : s ≠ .mail) (hs' : s' ≠ .mail)
    (h : s'.finished index' n = s.finished index n) :
    progress s' index' off n i = progress s index off n i := by
  simp [progress, h, hs, hs']

/-- `fetch_mbox_state_next` keeps it: the mailboxes are saved when no mail is left. -/
theorem good_next (h : Sound paths files q .next e) (hempty : c.flags.empty = q.isEmpty)
    (hc : c.state = .next) : Good conf paths files q (stateNext c e) := by
  have hle := h.next rfl
  have hmove : ∀ s' index, s' ≠ .init → s' ≠ .mail →
      s'.finished index e.data.fmboxes.length = State.next.finished e.data.index e.data.fmboxes.length →
      (s' = .open → index < e.data.fmboxes.length) → (s' = .exit → q = []) →
      index ≤ e.data.fmboxes.length →
      Sound paths files q s' { e with data := { e.data with index := index } } := by
    intro s' index hinit hmail hfinished hopen hexit hindex
    refine h.move index e.data.off nofun hinit ?_ (fun _ => hindex) hexit
      fun i fmbox hfmbox => ?_
    · rintro (hs | hs)
      · exact hopen hs
      · exact absurd hs hmail
    · rw [progress_congr (s := .next) State.noConfusion hmail hfinished]
      exact h.read nofun i fmbox hfmbox
  have hstep : (if e.data.index < e.data.fmboxes.length then e.data.index + 1 else e.data.index)
      = min (e.data.index + 1) e.data.fmboxes.length := by
    split_ifs <;> omega
  have hmin := Nat.min_le_right (e.data.index + 1) e.data.fmboxes.length
  unfold stateNext
  dsimp only
  rw [hstep]
  split_ifs with hlast hflag
  · show Sound _ _ _ c.state _
    rw [hc]
    refine hmove .next _ nofun nofun ?_ nofun nofun hmin
    show min _ _ = min _ _
    omega
  · refine hmove .exit _ nofun nofun ?_ nofun (fun _ => ?_) hmin
    · show e.data.fmboxes.length = min _ _
      omega
    · rw [hempty] at hflag
      simpa using hflag
  · exact hmove .open _ nofun nofun rfl (fun _ => by omega) nofun hmin

/-! ### Commits -/

/-- A mail that leaves the queue. -/
theorem auxes_erase {n : ℕ} {x : Mail FetchMboxMail} {aux : FetchMboxMail} (hx : q[n]? = some x)
    (haux : x.auxdata = some aux) : (auxes q).Perm (aux :: auxes (q.eraseIdx n)) :=
  filterMap_eraseIdx_perm hx haux

/-- A mail that leaves the queue is taken from the count of its own mailbox. -/
theorem length_ofMbox_erase {n : ℕ} {x : Mail FetchMboxMail} {aux : FetchMboxMail}
    (hx : q[n]? = some x) (haux : x.auxdata = some aux) (i : ℕ) (kept : List FetchMboxMail) :
    (ofMbox i (kept ++ auxes q)).length =
      (ofMbox i (kept ++ auxes (q.eraseIdx n))).length + (ofMbox i [aux]).length := by
  have hperm : (kept ++ auxes q).Perm (kept ++ auxes (q.eraseIdx n) ++ [aux]) :=
    ((auxes_erase hx haux).append_left kept).trans
      (List.perm_middle.trans (List.perm_append_singleton aux _).symm)
  have hlen := (hperm.filter fun a => a.fmbox = i).length_eq
  rw [List.filter_append _ [aux], List.length_append] at hlen
  exact hlen

/-- What a commit leaves as it is. -/
structure SameBooks (e e' : Env) : Prop where
  files : e'.files = e.files
  paths : e'.data.paths = e.data.paths
  length : e'.data.fmboxes.length = e.data.fmboxes.length
  index : e'.data.index = e.data.index
  off : e'.data.off = e.data.off
  fetched : e'.hist.fetched = e.hist.fetched

/-- After a commit, given that the places and counters are right again. -/
theorem Sound.commit {q' : List (Mail FetchMboxMail)} {e' : Env} (h : Sound paths files q s e)
    (hs : s ≠ .init) (hsame : SameBooks e e') (hsub : q'.Sublist q)
    (hkept : e'.data.kept.map Kept.aux = e'.hist.kept)
    (hplaces : (e'.hist.kept ++ e'.hist.dropped ++ auxes q').Perm e'.hist.fetched)
    (hmbox : ∀ i fmbox', e'.data.fmboxes[i]? = some fmbox' →
      ∃ fmbox, e.data.fmboxes[i]? = some fmbox ∧ fmbox'.base = fmbox.base ∧
        fmbox'.path = fmbox.path ∧ fmbox'.total = fmbox.total ∧
        fmbox'.reference = (ofMbox i (e'.hist.kept ++ auxes q')).length) :
    Sound paths files q' s e' where
  disk := hsame.files.trans h.disk
  conf := hsame.paths.trans h.conf
  init hinit := absurd hinit hs
  made hmade := hsame.length.trans (h.made hmade)
  index hindex := by
    rw [hsame.index, hsame.length]
    exact h.index hindex
  next hnext := by
    rw [hsame.index, hsame.length]
    exact h.next hnext
  exit hexit := by
    rw [h.exit hexit] at hsub
    exact List.sublist_nil.mp hsub
  kept _ := hkept
  places := hplaces
  queued x hx := h.queued x (hsub.subset hx)
  counted _ i fmbox' hfmbox' := by
    obtain ⟨fmbox, hfmbox, -, hpath, htotal, hreference⟩ := hmbox i fmbox' hfmbox'
    have hc := h.counted hs i fmbox hfmbox
    refine ⟨?_, hreference, ?_⟩
    · rw [hpath]
      exact hc.path
    · rw [htotal, hsame.fetched]
      exact hc.total
  read _ i fmbox' hfmbox' := by
    obtain ⟨fmbox, hfmbox, hbase, hpath, -, -⟩ := hmbox i fmbox' hfmbox'
    have hread := h.read hs i fmbox hfmbox
    rw [hsame.fetched, hsame.index, hsame.off, hsame.length]
    generalize progress s e.data.index e.data.off e.data.fmboxes.length i = p at hread ⊢
    cases p with
    | closed =>
      rw [ReadTo, hbase]
      exact hread
    | upto off =>
      rw [ReadTo, hbase, hpath]
      exact hread
    | finished =>
      rw [ReadTo, hbase, hpath]
      exact hread

/-- A mail that is to be kept is put on the list of what is kept. -/
theorem commit_keep {x : Mail FetchMboxMail} {aux : FetchMboxMail} (haux : x.auxdata = some aux) :
    commit { x with decision := .keep } e =
      (.again, { x with decision := .keep, auxdata := none },
        { e with
          data := { e.data with kept := e.data.kept ++ [⟨aux, false⟩] }
          hist := { e.hist with kept := e.hist.kept ++ [aux] } }) := by
  unfold commit
  simp only [haux]

/-- A mail that is dropped only lets go of its mailbox. -/
theorem commit_drop {x : Mail FetchMboxMail} {aux : FetchMboxMail} (haux : x.auxdata = some aux) :
    commit { x with decision := .drop } e =
      (.again, { x with decision := .drop },
        { e with hist := { e.hist with dropped := e.hist.dropped ++ [aux] } }) := by
  unfold commit
  simp only [haux]

/-- Freeing a mail takes one reference off its mbox. -/
theorem fetchMboxFree_spec {x : Mail FetchMboxMail} {aux : FetchMboxMail} {e' : Env}
    (haux : x.auxdata = some aux) (he' : fetchMboxFree x e = e') :
    SameBooks e e' ∧ e'.hist = e.hist ∧ e'.data.kept = e.data.kept ∧
      ∀ i fmbox', e'.data.fmboxes[i]? = some fmbox' →
        ∃ fmbox, e.data.fmboxes[i]? = some fmbox ∧ fmbox'.base = fmbox.base ∧
          fmbox'.path = fmbox.path ∧ fmbox'.total = fmbox.total ∧
          fmbox'.reference = fmbox.reference - (ofMbox i [aux]).length := by
  have hother : ∀ i, i ≠ aux.fmbox → (ofMbox i [aux]).length = 0 := by
    intro i hi
    rw [ofMbox_singleton, if_neg (Ne.symm hi)]
    rfl
  unfold fetchMboxFree at he'
  simp only [haux] at he'
  cases hfmbox : e.data.fmboxes[aux.fmbox]? with
  | none =>
    simp only [hfmbox] at he'
    subst he'
    refine ⟨⟨rfl, rfl, rfl, rfl, rfl, rfl⟩, rfl, rfl, fun i fmbox hi => ?_⟩
    have hne : i ≠ aux.fmbox := by
      rintro rfl
      rw [hfmbox] at hi
      cases hi
    exact ⟨fmbox, hi, rfl, rfl, rfl, by rw [hother i hne, Nat.sub_zero]⟩
  | some fmbox₀ =>
    simp only [hfmbox] at he'
    subst he'
    refine ⟨⟨rfl, rfl, length_setFmbox, rfl, rfl, rfl⟩, rfl, rfl, fun i fmbox hi => ?_⟩
    rcases getElem?_setFmbox hi with ⟨rfl, rfl⟩ | ⟨hne, hold⟩
    · refine ⟨fmbox₀, hfmbox, rfl, rfl, rfl, ?_⟩
      rw [ofMbox_singleton, if_pos rfl]
      rfl
    · exact ⟨fmbox, hold, rfl, rfl, rfl, by rw [hother i hne, Nat.sub_zero]⟩

/-- `fetch_mbox_commit` keeps it, for any decision. -/
theorem good_commit {n : ℕ} {x : Mail FetchMboxMail} (dec : Decision) (h : Sound paths files q s e)
    (hx : q[n]? = some x) :
    Committed (fetcher conf) (Sound paths files (q.eraseIdx n) s) (fun _ => True)
      (commit { x with decision := dec } e) := by
  have hmem : x ∈ q := List.mem_of_getElem? hx
  have hs : s ≠ .init := by
    intro hs
    rw [(h.init hs).2] at hmem
    cases hmem
  obtain ⟨aux, haux⟩ := Option.isSome_iff_exists.mp (h.queued x hmem)
  have hperm := auxes_erase hx haux
  have hlen := length_ofMbox_erase hx haux
  refine Committed.intro ?_ trivial
  cases dec with
  | keep =>
    rw [commit_keep haux]
    show Sound paths files (q.eraseIdx n) s { e with
      data := { e.data with kept := e.data.kept ++ [⟨aux, false⟩] }
      hist := { e.hist with kept := e.hist.kept ++ [aux] } }
    refine h.commit hs ⟨rfl, rfl, rfl, rfl, rfl, rfl⟩ (List.eraseIdx_sublist ..) ?_ ?_ ?_
    · show (e.data.kept ++ [(⟨aux, false⟩ : Kept)]).map Kept.aux = e.hist.kept ++ [aux]
      rw [List.map_append, h.kept hs]
      rfl
    · show (e.hist.kept ++ [aux] ++ e.hist.dropped ++ auxes (q.eraseIdx n)).Perm e.hist.fetched
      refine List.Perm.trans ?_ h.places
      rw [List.append_assoc, List.append_assoc, List.append_assoc]
      refine List.Perm.append_left _ ?_
      show (aux :: (e.hist.dropped ++ auxes (q.eraseIdx n))).Perm _
      exact List.perm_middle.symm.trans (hperm.symm.append_left _)
    · intro i fmbox hfmbox
      refine ⟨fmbox, hfmbox, rfl, rfl, rfl, ?_⟩
      show _ = (ofMbox i (e.hist.kept ++ [aux] ++ auxes (q.eraseIdx n))).length
      rw [(h.counted hs i fmbox hfmbox).reference, hlen]
      simp only [ofMbox_append, List.length_append]
      omega
  | drop =>
    rw [commit_drop haux]
    show Sound paths files (q.eraseIdx n) s (fetchMboxFree _ _)
    obtain ⟨hsame, hhist, hkept, hmbox⟩ := fetchMboxFree_spec (x := { x with decision := .drop })
      (e := { e with hist := { e.hist with dropped := e.hist.dropped ++ [aux] } }) haux rfl
    refine h.commit hs
      ⟨hsame.files, hsame.paths, hsame.length, hsame.index, hsame.off, hsame.fetched⟩
      (List.eraseIdx_sublist ..) ?_ ?_ ?_
    · rw [hkept, hhist]
      exact h.kept hs
    · rw [hhist]
      show (e.hist.kept ++ (e.hist.dropped ++ [aux]) ++ auxes (q.eraseIdx n)).Perm e.hist.fetched
      refine List.Perm.trans ?_ h.places
      rw [← List.append_assoc, List.append_assoc]
      exact List.Perm.append_left _ hperm.symm
    · intro i fmbox' hfmbox'
      obtain ⟨fmbox, hfmbox, hbase, hpath, htotal, hreference⟩ := hmbox i fmbox' hfmbox'
      refine ⟨fmbox, hfmbox, hbase, hpath, htotal, ?_⟩
      rw [hreference, (h.counted hs i fmbox hfmbox).reference, hlen, hhist]
      show _ = (ofMbox i (e.hist.kept ++ auxes (q.eraseIdx n))).length
      omega

/-- The state after a mail is handed out. -/
theorem Sound.handOut {fmbox : FetchMboxMbox} {aux : FetchMboxMail} {off : ℕ}
    {m : Mail FetchMboxMail} (h : Sound paths files q .mail e)
    (hfmbox : e.data.fmboxes[e.data.index]? = some fmbox) (hoff : e.data.off < fmbox.base.length)
    (haux : aux = (scanMail unlimited fmbox.base e.data.off e.data.index).1)
    (hnext : off = (scanMail unlimited fmbox.base e.data.off e.data.index).2.1)
    (hm : m.auxdata = some aux) :
    Sound paths files (q ++ [m]) .mail
      (setFmbox e.data.index
        { fmbox with reference := fmbox.reference + 1, total := fmbox.total + 1 }
        { e with
          data := { e.data with off := off }
          hist := { e.hist with fetched := e.hist.fetched ++ [aux] } }) := by
  have hread := h.read nofun _ _ hfmbox
  rw [progress_mail] at hread
  obtain ⟨hfile, -, hread⟩ := hread
  have hindex := h.index (Or.inr rfl)
  have hauxes : auxes (q ++ [m]) = auxes q ++ [aux] := by
    rw [auxes, List.filterMap_append, List.filterMap_cons_some hm]
    rfl
  have hmine : aux.fmbox = e.data.index := by
    obtain ⟨ls₁, ls₂, hcut⟩ := exists_cut fmbox.base e.data.off e.data.index
    rw [haux]
    exact hcut.auxFmbox
  have hsingle : ofMbox e.data.index [aux] = [aux] := by
    rw [ofMbox_singleton, if_pos hmine]
  have hother : ∀ i, i ≠ e.data.index → ofMbox i [aux] = [] := by
    intro i hi
    rw [ofMbox_singleton, if_neg]
    rw [hmine]
    exact Ne.symm hi
  constructor
  · exact h.disk
  · exact h.conf
  · exact nofun
  · intro _
    exact length_setFmbox.trans (h.made nofun)
  · intro _
    exact length_setFmbox.symm ▸ hindex
  · exact nofun
  · exact nofun
  · intro _
    exact h.kept nofun
  · show (e.hist.kept ++ e.hist.dropped ++ auxes (q ++ [m])).Perm (e.hist.fetched ++ [aux])
    rw [hauxes, ← List.append_assoc]
    exact h.places.append_right _
  · intro x hx
    rcases List.mem_append.mp hx with hx | hx
    · exact h.queued x hx
    · rw [List.mem_singleton.mp hx, hm]
      rfl
  · intro _ i fmbox' hfmbox'
    have hcount : (ofMbox i (e.hist.kept ++ auxes (q ++ [m]))).length
        = (ofMbox i (e.hist.kept ++ auxes q)).length + (ofMbox i [aux]).length := by
      rw [hauxes, ← List.append_assoc, ofMbox_append _ _ [aux], List.length_append]
    have htotal : (ofMbox i (e.hist.fetched ++ [aux])).length
        = (ofMbox i e.hist.fetched).length + (ofMbox i [aux]).length := by
      rw [ofMbox_append, List.length_append]
    rcases getElem?_setFmbox hfmbox' with ⟨rfl, rfl⟩ | ⟨hi, hold⟩
    · have hold := h.counted nofun _ _ hfmbox
      rw [hsingle] at hcount htotal
      refine ⟨hold.path, ?_, ?_⟩
      · show fmbox.reference + 1 = (ofMbox e.data.index (e.hist.kept ++ auxes (q ++ [m]))).length
        rw [hcount, hold.reference]
        rfl
      · show fmbox.total + 1 = (ofMbox e.data.index (e.hist.fetched ++ [aux])).length
        rw [htotal, hold.total]
        rfl
    · have hold := h.counted nofun i fmbox' hold
      rw [hother i hi] at hcount htotal
      refine ⟨hold.path, ?_, ?_⟩
      · show _ = (ofMbox i (e.hist.kept ++ auxes (q ++ [m]))).length
        rw [hcount, hold.reference]
        rfl
      · show _ = (ofMbox i (e.hist.fetched ++ [aux])).length
        rw [htotal, hold.total]
        rfl
  · intro _ i fmbox' hfmbox'
    rcases getElem?_setFmbox hfmbox' with ⟨rfl, rfl⟩ | ⟨hi, hold⟩
    · show ReadTo _ (e.hist.fetched ++ [aux]) _ _ (progress .mail e.data.index off _ e.data.index)
      rw [progress_mail]
      refine ⟨hfile, ?_, ?_⟩
      · rw [hnext]
        exact (next_bounds hoff _).2
      · show ofMbox e.data.index (e.hist.fetched ++ [aux])
          ++ (mails fmbox.base e.data.index off).map Prod.fst = (mails fmbox.base _ 0).map Prod.fst
        rw [← hread, mails_cons hoff, List.map_cons, ← haux, ← hnext, ofMbox_append, hsingle,
          List.append_assoc]
        rfl
    · show ReadTo _ (e.hist.fetched ++ [aux]) _ _ (progress .mail e.data.index off _ i)
      have hread := h.read nofun i fmbox' hold
      have hnone : ofMbox i (e.hist.fetched ++ [aux]) = ofMbox i e.hist.fetched := by
        rw [ofMbox_append, hother i hi, List.append_nil]
      rw [length_setFmbox, ← (progress_other 0 _ hi hindex).1]
      rw [← (progress_other 0 _ hi hindex).1] at hread
      generalize progress .open e.data.index 0 e.data.fmboxes.length i = p at hread ⊢
      cases p with
      | closed =>
        rw [ReadTo, hnone]
        exact hread
      | upto off =>
        rw [ReadTo, hnone]
        exact hread
      | finished =>
        rw [ReadTo, hnone]
        exact hread

/-- `fetch_mbox_state_mail` keeps it: the mail it hands out joins the queue. -/
theorem good_mail (h : Sound paths files q .mail e) (hc : c.state = .mail) :
    Good conf paths files q (stateMail conf c e) := by
  unfold stateMail
  cases hfmbox : e.data.fmboxes[e.data.index]? with
  | none => trivial
  | some fmbox =>
    have hread := h.read nofun _ _ hfmbox
    rw [progress_mail] at hread
    obtain ⟨hfile, hoff, hread⟩ := hread
    dsimp only
    by_cases hend : e.data.off = fmbox.base.length
    · rw [if_pos hend]
      refine good_finish (Or.inr rfl) h hfmbox ⟨hfile, ?_⟩
      rw [hend, mails_end, List.map_nil, List.append_nil] at hread
      exact hread
    · rw [if_neg hend]
      by_cases hfault : e.fault
      · rw [if_pos hfault]
        trivial
      · rw [if_neg hfault]
        obtain ⟨haux, hnext⟩ := scanMail_big (fun n => decide (conf.maxSize < n)) fmbox.base
          e.data.off e.data.index
        refine Outcome.mail trivial (fun m hm => ?_) fun q' n x hq' hx => ?_
        · show Sound paths files (q ++ [m]) c.state _
          rw [hc]
          exact h.handOut hfmbox (Nat.lt_of_le_of_ne hoff hend) haux hnext hm
        · exact good_commit .drop hq' hx

/-! ### The end -/

/-- The file that an mbox gets. -/
theorem rewrite_saved {fmbox : FetchMboxMbox} {kept dropped : List FetchMboxMail}
    (hreference : fmbox.reference = kept.length)
    (htotal : fmbox.total = kept.length + dropped.length) :
    (rewrite fmbox kept).or (some fmbox.base) = some (saved fmbox.base kept dropped) := by
  unfold rewrite saved
  rw [hreference, htotal]
  by_cases hdropped : dropped = []
  · rw [if_pos hdropped, hdropped, List.length_nil, Nat.add_zero, if_pos rfl]
    by_cases hkept : kept.length = 0
    · rw [if_pos hkept, if_neg (not_not.mpr hkept), Option.none_or]
    · rw [if_neg hkept, Option.none_or]
  · have hpos : 0 < dropped.length := List.length_pos_iff.mpr hdropped
    rw [if_neg hdropped]
    by_cases hkept : kept.length = 0
    · rw [if_pos hkept, if_pos (by omega), List.length_eq_zero_iff.mp hkept]
      rfl
    · rw [if_neg hkept, if_neg (by omega), Option.some_or]

/-- `fetch_mbox_state_exit` keeps it. -/
theorem good_exit (h : Sound paths files q .exit e) : Good conf paths files q (stateExit c e) := by
  unfold stateExit
  cases hsave : saveAll (List.range e.data.fmboxes.length) e with
  | error e' => trivial
  | fatal e' => trivial
  | ok e' =>
    have hq := h.exit rfl
    refine ⟨hq, fun i path hpath honce => ?_⟩
    have hlt : i < e.data.fmboxes.length := by
      rw [h.made nofun]
      exact (List.getElem?_eq_some_iff.mp hpath).1
    obtain ⟨fmbox, hfmbox⟩ : ∃ fmbox, e.data.fmboxes[i]? = some fmbox :=
      ⟨_, List.getElem?_eq_getElem hlt⟩
    have hcounted := h.counted nofun i fmbox hfmbox
    have hread := h.read nofun i fmbox hfmbox
    have hfinished : progress .exit e.data.index e.data.off e.data.fmboxes.length i = .finished := by
      rw [progress, State.finished, if_pos hlt]
    rw [hfinished] at hread
    obtain ⟨hfile, hread⟩ := hread
    obtain rfl : fmbox.path = path := Option.some.inj (hcounted.path.symm.trans hpath)
    have hmine := saveAll_mine List.nodup_range hsave (List.mem_range.mpr hlt) hfmbox (by
      intro j hj fmbox' hfmbox' hp
      refine honce j ?_
      rw [(h.counted nofun j fmbox' hfmbox').path, hp])
    have hhist := (saveAll_others List.nodup_range hsave).1
    have hperm : (e.hist.kept ++ e.hist.dropped).Perm e.hist.fetched := by
      have hplaces := h.places
      rwa [hq, auxes, List.filterMap_nil, List.append_nil] at hplaces
    have hpermi : (ofMbox i e.hist.kept ++ ofMbox i e.hist.dropped).Perm
        (ofMbox i e.hist.fetched) := by
      rw [← ofMbox_append]
      exact hperm.filter _
    refine ⟨fmbox.base, hfile, ?_, ?_⟩
    · show e'.files fmbox.path
        = some (saved fmbox.base (ofMbox i e'.hist.kept) (ofMbox i e'.hist.dropped))
      rw [hmine, h.kept nofun, h.disk, hfile, hhist]
      refine rewrite_saved ?_ ?_
      · have hreference := hcounted.reference
        rwa [hq, auxes, List.filterMap_nil, List.append_nil] at hreference
      · rw [hcounted.total, ← hpermi.length_eq, List.length_append]
    · show (ofMbox i e'.hist.kept ++ ofMbox i e'.hist.dropped).Perm _
      rw [hhist, ← hread]
      exact hpermi

end

/-- The invariant of the fetch. -/
def inv (conf : Conf) (paths : List (List Char)) (files : List Char → Option (List Char)) :
    LoopInv (fetcher conf) conf noCallGuard noCommitGuard where
  run q c e := Sound paths files q c.state e
  done q e := q = [] ∧ Final paths files e
  dead _ := True
  run_dead _ := trivial
  done_dead _ := trivial
  dead_abort _ := trivial
  dead_auxfree _ := trivial
  run_flags _ _ h := h
  run_input i h := by
    cases i
    exact ⟨h.disk, h.conf, h.init, h.made, h.index, h.next, h.exit, h.kept, h.places, h.queued,
      h.counted, h.read⟩
  done_input i h := by
    cases i
    exact h
  state {q c e} h _ hempty := by
    show Good conf paths files q (state conf c e)
    unfold state
    cases hc : c.state with
    | init => exact good_init (hc ▸ h)
    | «open» => exact good_open (hc ▸ h)
    | next => exact good_next (hc ▸ h) hempty hc
    | mail => exact good_mail (hc ▸ h) hc
    | exit => exact good_exit (hc ▸ h)
  commit dec h hx _ := good_commit dec h hx
  commit_done dec h hx _ := by
    rw [h.1] at hx
    cases hx

/-- The files are as they were found, and nothing is in the queue. -/
theorem sound_begin (paths : List (List Char)) (files : List Char → Option (List Char)) :
    Sound paths files [] .init { data := { paths := paths }, files := files } where
  disk := rfl
  conf := rfl
  init _ := ⟨rfl, rfl⟩
  made h := absurd rfl h
  index h := by rcases h with h | h <;> cases h
  next := nofun
  exit := nofun
  kept h := absurd rfl h
  places := .refl _
  queued := by simp
  counted h := absurd rfl h
  read h := absurd rfl h

end Fdm.Mbox
