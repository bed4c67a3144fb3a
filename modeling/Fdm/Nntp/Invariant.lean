import Fdm.Nntp.Defs

/-!
# What an NNTP fetch keeps

`Sound` is the invariant of every run, in two parts:

* `Places`: each article announced is committed, refused, queued, or being fetched, also
  when only those since the last save are counted;
* `Table`: the groups have the last article announced, and the cache file has the groups as
  they were when it was last written.
-/

namespace Fdm.Nntp

open Fdm.Fetch Lib.Scanf

/-! ## Where the articles are -/

/-- The states between the announcement of an article and the end of its text. -/
def State.reading : State → Bool
  | .article | .line => true
  | _ => false

/-- The serial numbers of the queued mails. -/
def serials (q : List (Mail ℕ)) : List ℕ := q.filterMap Mail.auxdata

/-- From the article `lo` on, each one announced is settled, queued, or the one that is
being fetched. -/
def Tracked (lo : ℕ) (settled : List ℕ) (q : List (Mail ℕ)) (s : State)
    (seen : List Article) : Prop :=
  ∀ k, lo ≤ k → k < seen.length →
    k ∈ settled ∨ k ∈ serials q ∨ (s.reading = true ∧ k + 1 = seen.length)

section
variable {lo : ℕ} {settled settled' : List ℕ} {q : List (Mail ℕ)} {s s' : State}
  {seen : List Article}

/-- Between two articles no state makes a difference. -/
theorem Tracked.move (h : Tracked lo settled q s seen) (hs : s.reading = false) :
    Tracked lo settled q s' seen := by
  intro k hlo hk
  rcases h k hlo hk with hk | hk | ⟨htrue, -⟩
  · exact Or.inl hk
  · exact Or.inr (Or.inl hk)
  · rw [hs] at htrue
    exact absurd htrue Bool.false_ne_true

/-- The article that is being fetched goes on being fetched. -/
theorem Tracked.stay (h : Tracked lo settled q s seen) (hs' : s'.reading = true) :
    Tracked lo settled q s' seen := fun k hlo hk =>
  (h k hlo hk).imp_right (Or.imp_right fun hread => ⟨hs', hread.2⟩)

/-- An article is announced. -/
theorem Tracked.announce (h : Tracked lo settled q s seen) (hs : s.reading = false)
    (hs' : s'.reading = true) (a : Article) : Tracked lo settled q s' (seen ++ [a]) := by
  intro k hlo hk
  rw [List.length_append, List.length_singleton] at hk ⊢
  by_cases hlast : k = seen.length
  · exact Or.inr (Or.inr ⟨hs', by omega⟩)
  · have hmove : Tracked lo settled q .connect seen := h.move hs
    rcases hmove k hlo (by omega) with hk | hk | ⟨htrue, -⟩
    · exact Or.inl hk
    · exact Or.inr (Or.inl hk)
    · exact absurd htrue Bool.false_ne_true

/-- The server refuses the article. -/
theorem Tracked.refuse (h : Tracked lo settled q s seen) (hsub : settled ⊆ settled')
    (hlast : seen.length - 1 ∈ settled') : Tracked lo settled' q s' seen := by
  intro k hlo hk
  rcases h k hlo hk with hk | hk | ⟨-, hk⟩
  · exact Or.inl (hsub hk)
  · exact Or.inr (Or.inl hk)
  · obtain rfl : k = seen.length - 1 := by omega
    exact Or.inl hlast

theorem mem_serials_append {m : Mail ℕ} {k : ℕ} :
    k ∈ serials (q ++ [m]) ↔ k ∈ serials q ∨ m.auxdata = some k := by
  simp [serials, List.filterMap_append]

/-- The article is queued. -/
theorem Tracked.enqueue (h : Tracked lo settled q s seen) {m : Mail ℕ}
    (hm : m.auxdata = some (seen.length - 1)) : Tracked lo settled (q ++ [m]) s' seen := by
  intro k hlo hk
  rcases h k hlo hk with hk | hk | ⟨-, hk⟩
  · exact Or.inl hk
  · exact Or.inr (Or.inl (mem_serials_append.mpr (Or.inl hk)))
  · obtain rfl : k = seen.length - 1 := by omega
    exact Or.inr (Or.inl (mem_serials_append.mpr (Or.inr hm)))

/-- A queued mail is settled. -/
theorem Tracked.commit (h : Tracked lo settled q s seen) {n : ℕ} {x : Mail ℕ}
    (hx : q[n]? = some x) (hsub : settled ⊆ settled')
    (hset : ∀ k, x.auxdata = some k → k ∈ settled') :
    Tracked lo settled' (q.eraseIdx n) s seen := by
  intro k hlo hk
  rcases h k hlo hk with hk | hk | hk
  · exact Or.inl (hsub hk)
  · cases haux : x.auxdata with
    | none =>
      -- the mail stood for no article
      obtain ⟨y, hy, hky⟩ := List.mem_filterMap.mp hk
      have hne : y ≠ x := fun heq => by
        rw [heq, haux] at hky
        exact absurd hky (by simp)
      obtain ⟨hn, hxn⟩ := List.getElem?_eq_some_iff.mp hx
      have hperm := (List.getElem_cons_eraseIdx_perm hn).symm
      have hmem := hperm.subset hy
      rw [hxn, List.mem_cons] at hmem
      rcases hmem with hyx | hmem
      · exact absurd hyx hne
      · exact Or.inr (Or.inl (List.mem_filterMap.mpr ⟨y, hmem, hky⟩))
    | some j =>
      have hperm : (serials q).Perm (j :: serials (q.eraseIdx n)) :=
        filterMap_eraseIdx_perm hx haux
      have hmem := hperm.subset hk
      rw [List.mem_cons] at hmem
      rcases hmem with hkj | hmem
      · rw [hkj]
        exact Or.inl (hset j haux)
      · exact Or.inr (Or.inl hmem)
  · exact Or.inr (Or.inr hk)

end

/-- What the invariant is about: the groups, the articles and the cache file. -/
structure Books where
  names : List (List Char)
  disk : Option (List Char)
  group : ℕ := 0
  groups : List FetchNntpGroup := []
  loaded : List FetchNntpGroup := []
  seen : List Article := []
  committed : List ℕ := []
  refused : List ℕ := []
  resets : List ℕ := []
  saves : List Save := []

/-- The books of a state. -/
def books (e : Env) : Books where
  names := e.data.names
  disk := e.disk
  group := e.data.group
  groups := e.data.groups
  loaded := e.hist.loaded
  seen := e.hist.seen
  committed := e.hist.committed
  refused := e.hist.refused
  resets := e.hist.resets
  saves := e.hist.saves

namespace Books

/-- The articles announced when the cache file was last written. -/
def lastSeen (b : Books) : List Article := (b.saves.getLast?.map Save.seen).getD []

/-- The articles refused by then. -/
def lastRefused (b : Books) : List ℕ := (b.saves.getLast?.map Save.refused).getD []

/-- The articles refused since. -/
def refusedSince (b : Books) : List ℕ := b.refused.drop b.lastRefused.length

end Books

/-- Where the articles are, from the first one and from the last save on. -/
structure Places (q : List (Mail ℕ)) (s : State) (m : Mail ℕ) (b : Books) : Prop where
  all : Tracked 0 (b.committed ++ b.refused) q s b.seen
  since : Tracked b.lastSeen.length b.refusedSince q s b.seen
  refused : b.lastRefused.length ≤ b.refused.length
  hand : s = .line → m.auxdata = some (b.seen.length - 1)

/-! ## What the groups hold -/

/-- The last article announced in a group. -/
def lastOf (i : ℕ) (seen : List Article) : Option Article :=
  (seen.filter fun a => a.group = i).getLast?

theorem lastOf_append (i : ℕ) (seen : List Article) (a : Article) :
    lastOf i (seen ++ [a]) = if a.group = i then some a else lastOf i seen := by
  unfold lastOf
  rw [List.filter_append]
  by_cases hi : a.group = i
  · simp [hi]
  · simp [hi]

theorem lastOf_eq_none {i : ℕ} {seen : List Article} (h : ∀ a ∈ seen, a.group ≠ i) :
    lastOf i seen = none := by
  have hnil : (seen.filter fun a => a.group = i) = [] :=
    List.filter_eq_nil_iff.mpr fun a ha => by simpa using h a ha
  rw [lastOf, hnil]
  rfl

/-- A group has the last article announced in it. Without one it is as it was loaded, if
it has not been reset. -/
def EntryOk (seen : List Article) (resets : List ℕ) (i : ℕ) (g₀ g : FetchNntpGroup) : Prop :=
  match lastOf i seen with
  | some a => g.last = a.n ∧ g.id = some a.id
  | none => i ∉ resets → g.last = g₀.last ∧ g.id = g₀.id

/-- What of a group never changes. -/
def FetchNntpGroup.key (g : FetchNntpGroup) : List Char × Bool := (g.name, g.ignore)

/-- All groups are the ones loaded, with the right entries. -/
structure Right (loaded groups : List FetchNntpGroup) (seen : List Article) (resets : List ℕ) :
    Prop where
  shape : groups.map FetchNntpGroup.key = loaded.map FetchNntpGroup.key
  entry : ∀ i g₀ g, loaded[i]? = some g₀ → groups[i]? = some g → EntryOk seen resets i g₀ g

/-- Resetting another group changes nothing. -/
theorem EntryOk.mono {seen : List Article} {resets resets' : List ℕ} {i : ℕ}
    {g₀ g : FetchNntpGroup} (h : EntryOk seen resets i g₀ g) (hsub : resets ⊆ resets') :
    EntryOk seen resets' i g₀ g := by
  unfold EntryOk at h ⊢
  split at h
  · exact h
  · exact fun hi => h fun hmem => hi (hsub hmem)

/-- An article of another group changes nothing. -/
theorem EntryOk.append {seen : List Article} {resets : List ℕ} {i : ℕ} {g₀ g : FetchNntpGroup}
    (h : EntryOk seen resets i g₀ g) {a : Article} (ha : a.group ≠ i) :
    EntryOk (seen ++ [a]) resets i g₀ g := by
  unfold EntryOk at h ⊢
  rwa [lastOf_append, if_neg ha]

theorem Right.mono {loaded groups : List FetchNntpGroup} {seen : List Article}
    {resets resets' : List ℕ} (h : Right loaded groups seen resets) (hsub : resets ⊆ resets') :
    Right loaded groups seen resets' :=
  ⟨h.shape, fun i g₀ g h₀ hg => (h.entry i g₀ g h₀ hg).mono hsub⟩

/-- One group is changed, and with it what is to be expected of it. -/
theorem Right.set {loaded groups : List FetchNntpGroup} {seen seen' : List Article}
    {resets resets' : List ℕ} {i : ℕ} {g g' : FetchNntpGroup}
    (h : Right loaded groups seen resets) (hg : groups[i]? = some g)
    (hkey : g'.key = g.key)
    (hthis : ∀ g₀, loaded[i]? = some g₀ → EntryOk seen' resets' i g₀ g')
    (hother : ∀ j, i ≠ j → ∀ g₀ g, EntryOk seen resets j g₀ g → EntryOk seen' resets' j g₀ g) :
    Right loaded (groups.set i g') seen' resets' where
  shape := by
    rw [List.map_set, hkey, ← h.shape]
    obtain ⟨hi, hgi⟩ := List.getElem?_eq_some_iff.mp hg
    apply List.ext_getElem?
    intro j
    rw [List.getElem?_set]
    by_cases hij : i = j
    · rw [if_pos hij, List.length_map, if_pos hi, ← hij, List.getElem?_map, hg]
      rfl
    · rw [if_neg hij]
  entry j g₀ g'' h₀ hg'' := by
    rw [List.getElem?_set] at hg''
    by_cases hij : i = j
    · obtain ⟨hi, -⟩ := List.getElem?_eq_some_iff.mp hg
      rw [if_pos hij, if_pos hi, Option.some.injEq] at hg''
      rw [← hg'', ← hij]
      rw [← hij] at h₀
      exact hthis g₀ h₀
    · rw [if_neg hij] at hg''
      exact hother j hij g₀ g'' (h.entry j g₀ g'' h₀ hg'')

/-- The states in which nothing of the current group has been announced. -/
def State.fresh : State → Bool
  | .connected | .auth1 | .auth2 | .group | .reset | .stat | .wait => true
  | _ => false

/-- The groups, and the cache file. -/
structure Table (names : List (List Char)) (old : Option (List Char)) (s : State) (b : Books) :
    Prop where
  loaded : load names old = some b.loaded
  right : Right b.loaded b.groups b.seen b.resets
  current : s ≠ .quit → b.group < names.length
  seen : ∀ a ∈ b.seen, a.group < names.length
  resets : ∀ i ∈ b.resets, i < names.length
  earlier : s ≠ .quit → ∀ a ∈ b.seen, a.group ≤ b.group
  fresh : s.fresh = true → ∀ a ∈ b.seen, a.group < b.group
  unsaved : b.saves = [] → b.disk = old
  saved : ∀ x, b.saves.getLast? = some x →
    b.disk = some (saveFile x.groups) ∧ x.seen <+: b.seen ∧
      Right b.loaded x.groups x.seen b.resets

/-- What holds while the fetch goes on. -/
structure Sound (names : List (List Char)) (old : Option (List Char)) (q : List (Mail ℕ))
    (c : Ctx) (b : Books) : Prop where
  start : c.state = .connect → q = [] ∧ b = { names := names, disk := old }
  places : Places q c.state c.mail b
  table : c.state ≠ .connect → Table names old c.state b

/-- What a state function has to give back. -/
def Good (conf : Conf) (names : List (List Char)) (old : Option (List Char))
    (done : List (Mail ℕ) → Env → Prop) (q : List (Mail ℕ)) : Result → Prop :=
  Outcome conf (fetcher conf) (fun q c e => Sound names old q c (books e)) done (fun _ => True) q

section
variable {conf : Conf} {names : List (List Char)} {old : Option (List Char)}
  {done : List (Mail ℕ) → Env → Prop} {q : List (Mail ℕ)} {m m' : Mail ℕ} {c : Ctx} {e : Env}
  {s s' : State} {b : Books}

/-! ## Replies -/

/-- Reading a reply: nothing has changed but the lines that are left. -/
theorem checkElse_cases {P : Result → Prop} {bad : FetchCode} {codes : List ℕ}
    {k : List Char → ℕ → Env → Result}
    (hblock : ∀ rest, P (.block, c, { e with inbuf := rest }))
    (herror : ∀ rest, P (.error, c, { e with inbuf := rest }))
    (hbad : ∀ rest, P (bad, c, { e with inbuf := rest }))
    (hk : ∀ line code rest, nextReply e.inbuf = .code line code rest → code ∈ codes →
      P (k line code { e with inbuf := rest })) : P (checkElse bad codes c e k) := by
  unfold checkElse
  split
  · exact hblock _
  · exact herror _
  · next line code rest hreply =>
    by_cases hcode : code ∈ codes
    · rw [if_pos hcode]
      exact hk line code rest hreply hcode
    · rw [if_neg hcode]
      exact hbad rest

theorem good_check {codes : List ℕ} {k : List Char → ℕ → Env → Result}
    (hs : Sound names old q c (books e))
    (hk : ∀ line code rest, Good conf names old done q (k line code { e with inbuf := rest })) :
    Good conf names old done q (check codes c e k) :=
  checkElse_cases (P := Good conf names old done q) (fun _ => hs)
    (fun _ => trivial) (fun _ => trivial) fun line code rest _ _ => hk line code rest

theorem good_withGroup {k : FetchNntpGroup → Result}
    (hk : ∀ g, e.data.groups[e.data.group]? = some g → Good conf names old done q (k g)) :
    Good conf names old done q (withGroup c e k) := by
  unfold withGroup
  split
  · exact trivial
  · next g hg => exact hk g hg

/-! ## From state to state -/

/-- From a state outside an article to another one; the groups do not matter. -/
theorem Places.move {group : ℕ} {groups loaded : List FetchNntpGroup} {resets : List ℕ}
    (hp : Places q s m b) (hs : s.reading = false) (hs' : s' ≠ .line) :
    Places q s' m'
      { b with group := group, groups := groups, loaded := loaded, resets := resets } where
  all := hp.all.move hs
  since := hp.since.move hs
  refused := hp.refused
  hand hline := absurd hline hs'

/-- Another state, in which articles may have been dealt with. -/
theorem Table.move {committed refused : List ℕ} (ht : Table names old s b) (hs : s ≠ .quit)
    (hfresh : s'.fresh = true → s.fresh = true) :
    Table names old s' { b with committed := committed, refused := refused } where
  loaded := ht.loaded
  right := ht.right
  current _ := ht.current hs
  seen := ht.seen
  resets := ht.resets
  earlier _ := ht.earlier hs
  fresh h' := ht.fresh (hfresh h')
  unsaved := ht.unsaved
  saved := ht.saved

/-- A state further on in the dialogue that asks for no more. -/
def State.leads (s s' : State) : Bool :=
  !s.reading && s ≠ .connect && s ≠ .quit && s' ≠ .connect && s' ≠ .line
    && (!s'.fresh || s.fresh)

theorem Sound.tableOf (hs : Sound names old q c b) (hc : c.state = s) (hconn : s ≠ .connect) :
    Table names old s b := by
  have ht := hs.table (by rw [hc]; exact hconn)
  rwa [hc] at ht

theorem Sound.placesOf (hs : Sound names old q c b) (hc : c.state = s) :
    Places q s c.mail b := by
  have hp := hs.places
  rwa [hc] at hp

/-- Behind `fetch_nntp_state_connect` the two parts of the invariant are all there is. -/
theorem Sound.intro (hc : c.state ≠ .connect) (hp : Places q c.state c.mail b)
    (ht : Table names old c.state b) : Sound names old q c b :=
  ⟨fun h => absurd h hc, hp, fun _ => ht⟩

theorem Sound.move (hs : Sound names old q c b) (hc : c.state = s) (s' : State)
    (hm : s.leads s' = true) : Sound names old q { c with state := s' } b := by
  simp only [State.leads, Bool.and_eq_true, Bool.not_eq_true', decide_eq_true_eq] at hm
  obtain ⟨⟨⟨⟨⟨hread, hconn⟩, hquit⟩, hconn'⟩, hline'⟩, hfresh⟩ := hm
  refine .intro hconn' ((hs.placesOf hc).move hread hline')
    ((hs.tableOf hc hconn).move hquit fun h => ?_)
  rw [h] at hfresh
  simpa using hfresh

theorem good_stateConnected (hc : c.state = .connected) (hs : Sound names old q c (books e)) :
    Good conf names old done q (stateConnected c e) := by
  refine good_check hs fun _ _ rest => ?_
  dsimp only
  split
  · exact hs.move hc .auth1 rfl
  · exact hs.move hc .group rfl

theorem good_stateAuth1 (hc : c.state = .auth1) (hs : Sound names old q c (books e)) :
    Good conf names old done q (stateAuth1 c e) :=
  good_check hs fun _ _ _ => hs.move hc .auth2 rfl

theorem good_stateAuth2 (hc : c.state = .auth2) (hs : Sound names old q c (books e)) :
    Good conf names old done q (stateAuth2 c e) :=
  checkElse_cases (P := Good conf names old done q) (fun _ => hs) (fun _ => trivial)
    (fun _ => trivial) fun _ _ _ _ _ => hs.move hc .group rfl

theorem good_stateGroup (hc : c.state = .group) (hs : Sound names old q c (books e)) :
    Good conf names old done q (stateGroup c e) :=
  good_withGroup fun _ _ => hs.move hc .stat rfl

/-! ## The current group -/

/-- The size of a group is not in its entry. -/
theorem Table.resize (ht : Table names old s b) {g : FetchNntpGroup}
    (hg : b.groups[b.group]? = some g) (size : ℕ) :
    Table names old s { b with groups := b.groups.set b.group { g with size := size } } where
  loaded := ht.loaded
  right := ht.right.set hg rfl (fun g₀ h₀ => ht.right.entry b.group g₀ g h₀ hg)
    fun _ _ _ _ h => h
  current := ht.current
  seen := ht.seen
  resets := ht.resets
  earlier := ht.earlier
  fresh := ht.fresh
  unsaved := ht.unsaved
  saved := ht.saved

/-- A group is reset before anything of it has been announced. -/
theorem Table.reset (ht : Table names old .reset b) {g : FetchNntpGroup}
    (hg : b.groups[b.group]? = some g) :
    Table names old .group
      { b with
        groups := b.groups.set b.group { g with id := none, last := 0 }
        resets := b.resets ++ [b.group] } where
  loaded := ht.loaded
  right := by
    refine ht.right.set hg rfl (fun g₀ _ => ?_)
      fun j _ g₀ g h => h.mono (List.subset_append_left _ _)
    have hnone : lastOf b.group b.seen = none :=
      lastOf_eq_none fun a ha => Nat.ne_of_lt (ht.fresh rfl a ha)
    unfold EntryOk
    rw [hnone]
    exact fun hne => absurd (List.mem_append_right _ (List.mem_singleton_self _)) hne
  current _ := ht.current nofun
  seen := ht.seen
  resets i hi := by
    rcases List.mem_append.mp hi with hi | hi
    · exact ht.resets i hi
    · rw [List.mem_singleton.mp hi]
      exact ht.current nofun
  earlier _ := ht.earlier nofun
  fresh _ := ht.fresh rfl
  unsaved := ht.unsaved
  saved x hx := by
    obtain ⟨hdisk, hseen, hright⟩ := ht.saved x hx
    exact ⟨hdisk, hseen, hright.mono (List.subset_append_left _ _)⟩

/-- An article is announced, and becomes the last of its group. -/
theorem Table.announce (ht : Table names old .next b) {g : FetchNntpGroup}
    (hg : b.groups[b.group]? = some g) (n : ℕ) (id : List Char) :
    Table names old .article
      { b with
        groups := b.groups.set b.group { g with last := n, id := some id }
        seen := b.seen ++ [⟨b.group, n, id⟩] } where
  loaded := ht.loaded
  right := by
    refine ht.right.set hg rfl (fun g₀ _ => ?_) fun j hj g₀ g h => h.append hj
    unfold EntryOk
    rw [lastOf_append, if_pos rfl]
    exact ⟨rfl, rfl⟩
  current _ := ht.current nofun
  seen a ha := by
    rcases List.mem_append.mp ha with ha | ha
    · exact ht.seen a ha
    · rw [List.mem_singleton.mp ha]
      exact ht.current nofun
  resets := ht.resets
  earlier _ a ha := by
    rcases List.mem_append.mp ha with ha | ha
    · exact ht.earlier nofun a ha
    · rw [List.mem_singleton.mp ha]
  fresh := nofun
  unsaved := ht.unsaved
  saved x hx := by
    obtain ⟨hdisk, hseen, hright⟩ := ht.saved x hx
    exact ⟨hdisk, hseen.trans (List.prefix_append _ _), hright⟩

theorem good_stateReset (hc : c.state = .reset) (hs : Sound names old q c (books e)) :
    Good conf names old done q (stateReset c e) :=
  good_withGroup fun _ hg => Sound.intro nofun ((hs.placesOf hc).move rfl nofun)
    ((hs.tableOf hc nofun).reset hg)

theorem good_stateStat (hc : c.state = .stat) (hs : Sound names old q c (books e)) :
    Good conf names old done q (stateStat c e) := by
  have hp := hs.placesOf hc
  have ht := hs.tableOf hc nofun
  refine good_withGroup fun g hg => good_check hs fun line _ rest => ?_
  split
  · split_ifs
    · exact .intro nofun (hp.move rfl nofun) ((ht.resize hg _).move nofun fun _ => rfl)
    · exact .intro nofun (hp.move rfl nofun) ((ht.resize hg _).move nofun fun _ => rfl)
    · exact .intro nofun (hp.move rfl nofun) ((ht.resize hg _).move nofun nofun)
  · exact trivial
  · exact trivial

theorem good_stateWait (hc : c.state = .wait) (hs : Sound names old q c (books e)) :
    Good conf names old done q (stateWait c e) := by
  refine good_withGroup fun g hg => good_check hs fun line code rest => ?_
  split_ifs
  · split
    · exact trivial
    · split_ifs
      · exact trivial
      · exact trivial
      · exact hs.move hc .reset rfl
      · exact hs.move hc .next rfl
  · exact hs.move hc .next rfl

theorem good_stateNext (hc : c.state = .next) (hs : Sound names old q c (books e)) :
    Good conf names old done q (stateNext c e) := by
  have hp := hs.placesOf hc
  have ht := hs.tableOf hc nofun
  refine good_withGroup fun g hg => good_check hs fun line code rest => ?_
  split_ifs
  · exact hs.move hc .switch rfl
  · split
    · exact trivial
    · next n id _ =>
      exact .intro nofun ⟨hp.all.announce rfl rfl _, hp.since.announce rfl rfl _, hp.refused, nofun⟩
        (ht.announce hg n id)

/-- The server has an article it announced no more. -/
theorem Places.refuse (hp : Places q .article m b) :
    Places q .next m' { b with refused := b.refused ++ [b.seen.length - 1] } where
  all := hp.all.refuse (List.append_subset.mpr ⟨List.subset_append_left _ _, fun _ hk =>
      List.mem_append_right _ (List.mem_append_left _ hk)⟩)
    (List.mem_append_right _ (List.mem_append_right _ (List.mem_singleton_self _)))
  since := by
    have hsince : ({ b with refused := b.refused ++ [b.seen.length - 1] } : Books).refusedSince
        = b.refusedSince ++ [b.seen.length - 1] := List.drop_append_of_le_length hp.refused
    rw [hsince]
    exact hp.since.refuse (List.subset_append_left _ _)
      (List.mem_append_right _ (List.mem_singleton_self _))
  refused := by
    have hlen := hp.refused
    show b.lastRefused.length ≤ (b.refused ++ [b.seen.length - 1]).length
    rw [List.length_append]
    omega
  hand := nofun

theorem good_stateArticle (hc : c.state = .article) (hs : Sound names old q c (books e)) :
    Good conf names old done q (stateArticle c e) := by
  have hp := hs.placesOf hc
  have ht := hs.tableOf hc nofun
  refine good_withGroup fun g hg => good_check hs fun line code rest => ?_
  split_ifs
  · exact Sound.intro nofun hp.refuse (ht.move nofun nofun)
  · exact trivial
  · exact Sound.intro nofun ⟨hp.all.stay rfl, hp.since.stay rfl, hp.refused, fun _ => rfl⟩
      (ht.move nofun nofun)

/-! ## The text of an article -/

/-- What reading the text may leave of the mail. -/
def Reading.mail : Reading → Mail ℕ
  | .more _ m _ => m
  | .failed m => m
  | .ended _ m _ => m

theorem readLines_auxdata (conf : Conf) (fault : Bool) (lines : List Received) (m : Mail ℕ)
    (flushing : Bool) : (readLines conf fault lines m flushing).mail.auxdata = m.auxdata := by
  induction lines generalizing m flushing with
  | nil => rfl
  | cons r lines ih =>
    cases r with
    | broken => rfl
    | line s stale =>
      unfold readLines
      split_ifs
      · rfl
      · exact ih m flushing
      · rfl
      · dsimp only
        rw [ih, Mail.appendLine_auxdata]
      · dsimp only
        rw [ih, Mail.appendLine_auxdata]

/-- What a successful commit leaves. -/
def saved (m : Mail ℕ) (e : Env) : Env :=
  { e with
    disk := some (saveFile e.data.groups)
    hist := { e.hist with
      committed := e.hist.committed ++ m.auxdata.toList
      saves := e.hist.saves ++ [⟨saveFile e.data.groups, e.data.groups, e.hist.seen,
        e.hist.committed ++ m.auxdata.toList, e.hist.refused⟩] } }

theorem commit_eq (m : Mail ℕ) (e : Env) :
    commit m e = if e.fault then (.error, m, e) else (.again, m, saved m e) := by
  unfold commit save saved
  cases e.fault <;> rfl

/-- The places when a mail is committed: nothing is left from before this save. -/
theorem Places.save (hp : Places q s m b) {n : ℕ} {x : Mail ℕ} (hx : q[n]? = some x)
    {file : List Char} {disk : Option (List Char)} :
    Places (q.eraseIdx n) s m
      { b with
        disk := disk
        committed := b.committed ++ x.auxdata.toList
        saves := b.saves ++ [⟨file, b.groups, b.seen, b.committed ++ x.auxdata.toList,
          b.refused⟩] } where
  all := by
    refine hp.all.commit hx ?_ ?_
    · intro k hk
      rcases List.mem_append.mp hk with hk | hk
      · exact List.mem_append_left _ (List.mem_append_left _ hk)
      · exact List.mem_append_right _ hk
    · intro k hk
      rw [hk]
      exact List.mem_append_left _ (List.mem_append_right _ (List.mem_singleton_self k))
  since k hlo hk := by
    have hle : b.seen.length ≤ k := by simpa [Books.lastSeen] using hlo
    have hlt : k < b.seen.length := hk
    omega
  refused := by simp [Books.lastRefused]
  hand := hp.hand

/-- The cache file is written. -/
theorem Table.save (ht : Table names old s b) {committed : List ℕ} {x : Save}
    (hgroups : x.groups = b.groups) (hseen : x.seen = b.seen) :
    Table names old s
      { b with
        disk := some (saveFile b.groups), committed := committed, saves := b.saves ++ [x] } where
  loaded := ht.loaded
  right := ht.right
  current := ht.current
  seen := ht.seen
  resets := ht.resets
  earlier := ht.earlier
  fresh := ht.fresh
  unsaved hnil := absurd hnil (by simp)
  saved y hy := by
    obtain rfl : x = y := by simpa using hy
    rw [hgroups, hseen]
    exact ⟨rfl, List.prefix_rfl, ht.right⟩

/-- A mail is committed, and with it the cache file is written. -/
theorem Sound.commit (hs : Sound names old q c (books e)) {n : ℕ} {x : Mail ℕ} (dec : Decision)
    (hx : q[n]? = some x) :
    Committed (fetcher conf) (fun e => Sound names old (q.eraseIdx n) c (books e))
      (fun _ => True) (commit { x with decision := dec } e) := by
  have hconn : c.state ≠ .connect := fun hc => by
    rw [(hs.start hc).1] at hx
    exact absurd hx (by simp)
  rw [commit_eq]
  by_cases hfault : e.fault
  · rw [if_pos hfault]
    exact trivial
  · rw [if_neg hfault]
    exact Sound.intro hconn (hs.places.save hx) ((hs.table hconn).save rfl rfl)

/-- The article has been read, and may be queued. -/
theorem sound_lineEnded (hc : c.state = .line) (hs : Sound names old q c (books e))
    {rest : List Received} {m x : Mail ℕ} {flushing : Bool}
    (hr : readLines conf e.fault e.inbuf c.mail e.data.flushing = .ended rest m flushing)
    (hx : x.auxdata = m.auxdata) :
    Sound names old (q ++ [x]) { c with state := .next, mail := {} }
      (books { e with
        inbuf := rest
        data := { e.data with flushing := flushing }
        hist := { e.hist with sent := e.hist.sent ++ [.next] } }) := by
  have hp := hs.placesOf hc
  have haux := readLines_auxdata conf e.fault e.inbuf c.mail e.data.flushing
  rw [hr] at haux
  have hhand : c.mail.auxdata = some (e.hist.seen.length - 1) := hp.hand rfl
  have hx' : x.auxdata = some (e.hist.seen.length - 1) := hx.trans (haux.trans hhand)
  exact Sound.intro nofun ⟨hp.all.enqueue hx', hp.since.enqueue hx', hp.refused, nofun⟩
    ((hs.tableOf hc nofun).move nofun nofun)

theorem good_stateLine (hc : c.state = .line) (hs : Sound names old q c (books e)) :
    Good conf names old done q (stateLine conf c e) := by
  have hp := hs.placesOf hc
  have ht := hs.tableOf hc nofun
  have haux := readLines_auxdata conf e.fault e.inbuf c.mail e.data.flushing
  have hhand : c.mail.auxdata = some (e.hist.seen.length - 1) := hp.hand rfl
  unfold stateLine
  rcases hr : readLines conf e.fault e.inbuf c.mail e.data.flushing with
    ⟨rest, m, flushing⟩ | ⟨m⟩ | ⟨rest, m, flushing⟩
  · rw [hr] at haux
    have hm : m.auxdata = some (e.hist.seen.length - 1) := haux.trans hhand
    refine Sound.intro (by rw [hc]; exact nofun) ?_ ?_
    · show Places q c.state m (books e)
      rw [hc]
      exact ⟨hp.all, hp.since, hp.refused, fun _ => hm⟩
    · show Table names old c.state (books e)
      rw [hc]
      exact ht
  · exact trivial
  · exact Outcome.mail trivial (fun x hx => sound_lineEnded hc hs hr hx)
      fun q' n x hs' hx => hs'.commit .drop hx

/-! ## The groups that are fetched -/

/-- Reading an entry adds at most a group that is ignored. -/
theorem fillGroup_keys (name : List Char) (last : ℕ) (id : List Char) (gs : List FetchNntpGroup) :
    ∃ extra : List (List Char × Bool), (∀ p ∈ extra, p.2 = true) ∧
      (fillGroup name last id gs).map FetchNntpGroup.key = gs.map FetchNntpGroup.key ++ extra := by
  induction gs with
  | nil => exact ⟨[(name, true)], by simp, rfl⟩
  | cons g gs ih =>
    rw [fillGroup]
    by_cases hname : g.name = name
    · rw [if_pos hname]
      exact ⟨[], by simp, by rw [List.append_nil]; rfl⟩
    · rw [if_neg hname]
      obtain ⟨extra, hextra, heq⟩ := ih
      exact ⟨extra, hextra, by rw [List.map_cons, heq, List.map_cons, List.cons_append]⟩

theorem loadEntries_keys {fuel : ℕ} {s : List Char} {gs gs' : List FetchNntpGroup}
    (h : loadEntries fuel s gs = some gs') :
    ∃ extra : List (List Char × Bool), (∀ p ∈ extra, p.2 = true) ∧
      gs'.map FetchNntpGroup.key = gs.map FetchNntpGroup.key ++ extra := by
  induction fuel generalizing s gs with
  | zero => cases h
  | succ fuel ih =>
    unfold loadEntries at h
    split at h
    · split_ifs at h
      obtain rfl := Option.some.inj h
      exact ⟨[], by simp, by rw [List.append_nil]⟩
    · split at h
      · cases h
      · next name _ _ =>
        split at h
        · cases h
        · next last _ _ =>
          split at h
          · cases h
          · split at h
            · cases h
            · next id _ _ =>
              obtain ⟨extra, hextra, heq⟩ := ih h
              obtain ⟨extra', hextra', heq'⟩ := fillGroup_keys (cstr name) last (cstr id) gs
              refine ⟨extra' ++ extra, ?_, by rw [heq, heq', List.append_assoc]⟩
              intro p hp
              rcases List.mem_append.mp hp with hp | hp
              · exact hextra' p hp
              · exact hextra p hp

/-- The groups are the configured ones, and behind them those only the cache file has. -/
theorem load_keys {gs : List FetchNntpGroup} (h : load names old = some gs) :
    ∃ extra : List (List Char × Bool), (∀ p ∈ extra, p.2 = true) ∧
      gs.map FetchNntpGroup.key = names.map (fun name => (name, false)) ++ extra := by
  have hnames : (names.map fun name => ({ name := name } : FetchNntpGroup)).map FetchNntpGroup.key
      = names.map fun name => (name, false) := by
    rw [List.map_map]
    rfl
  unfold load at h
  dsimp only at h
  split at h
  · obtain rfl := Option.some.inj h
    exact ⟨[], by simp, by rw [hnames, List.append_nil]⟩
  · obtain ⟨extra, hextra, heq⟩ := loadEntries_keys h
    exact ⟨extra, hextra, by rw [heq, hnames]⟩

/-- Only configured groups are fetched. -/
theorem lt_of_not_ignore {gs : List FetchNntpGroup} {k : ℕ} {g : FetchNntpGroup}
    {loaded : List FetchNntpGroup} (h : load names old = some loaded)
    (hkeys : gs.map FetchNntpGroup.key = loaded.map FetchNntpGroup.key) (hg : gs[k]? = some g)
    (hignore : g.ignore = false) : k < names.length := by
  obtain ⟨extra, hextra, heq⟩ := load_keys h
  have hkey : (names.map (fun name => (name, false)) ++ extra)[k]? = some g.key := by
    rw [← heq, ← hkeys, List.getElem?_map, hg]
    rfl
  by_contra hk
  rw [List.getElem?_append_right (by rw [List.length_map]; omega)] at hkey
  have htrue : g.ignore = true := hextra g.key (List.mem_of_getElem? hkey)
  rw [hignore] at htrue
  exact absurd htrue Bool.false_ne_true

theorem activeFrom_eq_some {gs : List FetchNntpGroup} {i k : ℕ} (h : activeFrom gs i = some k) :
    i ≤ k ∧ ∃ g, gs[k]? = some g ∧ g.ignore = false := by
  obtain ⟨j, hj, rfl⟩ := Option.map_eq_some_iff.mp h
  rw [List.findIdx?_eq_some_iff_getElem] at hj
  obtain ⟨hlt, hignore, -⟩ := hj
  refine ⟨Nat.le_add_right i j, (gs.drop i)[j], ?_, by simpa using hignore⟩
  rw [← List.getElem?_drop]
  exact List.getElem?_eq_getElem hlt

/-- On to the next group. -/
theorem Table.advance (ht : Table names old .switch b) {k : ℕ} (hk : b.group < k)
    (hcurrent : k < names.length) : Table names old .group { b with group := k } where
  loaded := ht.loaded
  right := ht.right
  current _ := hcurrent
  seen := ht.seen
  resets := ht.resets
  earlier _ a ha := by
    have hle := ht.earlier nofun a ha
    show a.group ≤ k
    omega
  fresh _ a ha := by
    have hle := ht.earlier nofun a ha
    show a.group < k
    omega
  unsaved := ht.unsaved
  saved := ht.saved

/-- No group is left. -/
theorem Table.finish (ht : Table names old s b) (k : ℕ) :
    Table names old .quit { b with group := k } where
  loaded := ht.loaded
  right := ht.right
  current hne := absurd rfl hne
  seen := ht.seen
  resets := ht.resets
  earlier hne := absurd rfl hne
  fresh := nofun
  unsaved := ht.unsaved
  saved := ht.saved

theorem good_stateSwitch (hc : c.state = .switch) (hs : Sound names old q c (books e)) :
    Good conf names old done q (stateSwitch c e) := by
  have hp := hs.placesOf hc
  have ht := hs.tableOf hc nofun
  unfold stateSwitch
  split
  · exact Sound.intro nofun (hp.move rfl nofun) (ht.finish _)
  · next k hk =>
    obtain ⟨hle, g, hg, hignore⟩ := activeFrom_eq_some hk
    have hlt : k < names.length := lt_of_not_ignore ht.loaded ht.right.shape hg hignore
    exact Sound.intro nofun (hp.move rfl nofun) (ht.advance hle hlt)

/-- The groups as they are loaded are right before anything is announced. -/
theorem right_loaded (loaded : List FetchNntpGroup) : Right loaded loaded [] [] where
  shape := rfl
  entry i g₀ g h₀ hg _ := by
    obtain rfl : g₀ = g := Option.some.inj (h₀.symm.trans hg)
    exact ⟨rfl, rfl⟩

theorem good_stateConnect (hc : c.state = .connect) (hs : Sound names old q c (books e)) :
    Good conf names old done q (stateConnect c e) := by
  obtain ⟨-, hbooks⟩ := hs.start hc
  have hnames : e.data.names = names := congrArg Books.names hbooks
  have hdisk : e.disk = old := congrArg Books.disk hbooks
  have hseen : e.hist.seen = [] := congrArg Books.seen hbooks
  have hresets : e.hist.resets = [] := congrArg Books.resets hbooks
  have hsaves : e.hist.saves = [] := congrArg Books.saves hbooks
  have hp := hs.placesOf hc
  unfold stateConnect
  split_ifs
  · exact trivial
  · split
    · exact trivial
    · exact trivial
    · next g gs hload =>
      rw [hnames, hdisk] at hload
      split
      · exact trivial
      · next k hk =>
        obtain ⟨-, g', hg', hignore⟩ := activeFrom_eq_some hk
        have hlt : k < names.length := lt_of_not_ignore hload rfl hg' hignore
        refine Sound.intro nofun (hp.move rfl nofun) ⟨hload, ?_, fun _ => hlt, ?_, ?_, ?_, ?_,
          fun _ => hdisk, ?_⟩
        · show Right (g :: gs) (g :: gs) e.hist.seen e.hist.resets
          rw [hseen, hresets]
          exact right_loaded (g :: gs)
        · show ∀ a ∈ e.hist.seen, a.group < names.length
          rw [hseen]
          exact nofun
        · show ∀ i ∈ e.hist.resets, i < names.length
          rw [hresets]
          exact nofun
        · show _ → ∀ a ∈ e.hist.seen, a.group ≤ k
          rw [hseen]
          exact nofun
        · show _ → ∀ a ∈ e.hist.seen, a.group < k
          rw [hseen]
          exact nofun
        · show ∀ x, e.hist.saves.getLast? = some x → _
          rw [hsaves]
          exact nofun

/-- A call of a state function keeps the invariant. What `FETCH_EXIT` leaves is up to
`done`. -/
theorem good_state (hs : Sound names old q c (books e))
    (hquit : c.state = .quit → ∀ line rest, nextReply e.inbuf = .code line 205 rest →
      done q (abort { e with inbuf := rest })) : Good conf names old done q (state conf c e) := by
  unfold state
  cases hc : c.state with
  | connect => exact good_stateConnect hc hs
  | connected => exact good_stateConnected hc hs
  | auth1 => exact good_stateAuth1 hc hs
  | auth2 => exact good_stateAuth2 hc hs
  | switch => exact good_stateSwitch hc hs
  | group => exact good_stateGroup hc hs
  | reset => exact good_stateReset hc hs
  | stat => exact good_stateStat hc hs
  | wait => exact good_stateWait hc hs
  | next => exact good_stateNext hc hs
  | article => exact good_stateArticle hc hs
  | line => exact good_stateLine hc hs
  | quit =>
    show Good conf names old done q (checkElse .error [205] c e fun _ _ e => (.exit, c, abort e))
    refine checkElse_cases (P := Good conf names old done q) (fun _ => hs) (fun _ => trivial)
      (fun _ => trivial) fun line code rest hreply hcode => ?_
    obtain rfl : code = 205 := by simpa using hcode
    exact hquit hc line rest hreply

/-- The invariant holds before the first call. -/
theorem sound_begin (flags : FetchFlags) (data : FetchNntpData) (hnames : data.names = names)
    (hgroup : data.group = 0) (hgroups : data.groups = []) :
    Sound names old [] { state := .connect, flags := flags }
      (books { data := data, disk := old, hist := {} }) where
  start _ := by
    refine ⟨rfl, ?_⟩
    simp [books, hnames, hgroup, hgroups]
  places := ⟨fun k _ hk => absurd hk (by simp [books]), fun k _ hk => absurd hk (by simp [books]),
    Nat.le_refl _, nofun⟩
  table hne := absurd rfl hne

end

end Fdm.Nntp
