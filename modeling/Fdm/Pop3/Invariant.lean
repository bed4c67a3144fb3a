import Fdm.Pop3.Cache
import Mathlib.Tactic.Tauto

/-!
# What a POP3 fetch with UIDL keeps

`Base` is the invariant of a run with UIDL, in three parts:

* `Shape`: where in the dialogue which queue may hold something, and the counters;
* `Ledger`: every mail selected is in one place, or gone from the server;
* `CacheInv`: the cache tree and the cache files written so far.

`base` packs it up as an invariant of the fetch loop. The invariants of one session are
in `Fdm.Pop3.Session`.
-/

namespace Fdm.Pop3

open Fdm.Fetch Lib.Scanf Lib.KeyedTree

/-! ## The invariant -/

/-- What a state of the dialogue is about, as far as the queues are concerned. -/
inductive Phase
  | init
  | idle
  | next
  | delete
  | fetch
  | quit
deriving DecidableEq, Repr

/-- The phase of a state; in `idle` no mail is out of the want queue. -/
def State.phase : State → Phase
  | .init => .init
  | .next => .next
  | .delete => .delete
  | .list | .retr | .line => .fetch
  | .quit => .quit
  | _ => .idle

/-- The phases in which nothing is fetched and not committed. -/
def Phase.quiet : Phase → Bool
  | .init | .idle | .quit => true
  | _ => false

/-- The mails handed to the loop and not yet committed. -/
def fetched (q : List (Mail FetchPop3Mail)) : List FetchPop3Mail := q.filterMap Mail.auxdata

/-- Queues and counters. -/
structure Shape (q : List (Mail FetchPop3Mail)) (p : Phase) (m : Mail FetchPop3Mail) (e : Env) :
    Prop where
  queued : ∀ x ∈ q, x.auxdata.isSome = true
  quiet : p.quiet = true → q = [] ∧ e.data.dropq = []
  init : p = .init → e.hist.listings = []
  wanted : p = .idle → e.hist.listings = [] ∨ e.data.wantq ≠ []
  fetch : p = .fetch → ∃ aux rest, e.data.wantq = aux :: rest ∧ m.auxdata = some aux
  delete : p = .delete → e.data.dropq ≠ []
  total : e.data.total
    = e.data.wantq.length + q.length + e.data.dropq.length + e.data.committed

/-- The UIDs of the selected mails, by the place they are in: wanted, fetched, waiting for
their DELE, kept, deleted. -/
def places (q : List (Mail FetchPop3Mail)) (e : Env) : List (List Char) :=
  e.data.wantq.map FetchPop3Mail.uid ++ (fetched q).map FetchPop3Mail.uid
    ++ e.data.dropq.map FetchPop3Mail.uid ++ e.hist.kept ++ e.hist.acked

/-- A UID that some session did not list. -/
def Vanished (e : Env) (u : List Char) : Prop := ∃ L ∈ e.hist.listings, u ∉ L

instance (e : Env) (u : List Char) : Decidable (Vanished e u) :=
  inferInstanceAs (Decidable (∃ L ∈ e.hist.listings, u ∉ L))

/-- Every mail selected is in one place or has vanished. -/
structure Ledger (q : List (Mail FetchPop3Mail)) (e : Env) : Prop where
  nodup : e.hist.selected.Nodup
  first : ∀ u ∈ e.hist.selected, u ∈ e.hist.listings.headD []
  perm : ∃ gone, (∀ u ∈ gone, Vanished e u) ∧ (places q e ++ gone).Perm e.hist.selected
  dropped : e.hist.dropped = e.hist.acked ++ e.data.dropq.map FetchPop3Mail.uid

/-- Mails go from one place to another. -/
theorem Ledger.move {q q' : List (Mail FetchPop3Mail)} {e e' : Env} (h : Ledger q e)
    (hcount : ∀ u, (places q' e').count u = (places q e).count u) :
    ∃ gone, (∀ u ∈ gone, Vanished e u) ∧ (places q' e' ++ gone).Perm e.hist.selected := by
  obtain ⟨gone, hgone, hperm⟩ := h.perm
  have hplaces : (places q' e').Perm (places q e) := List.perm_iff_count.mpr hcount
  exact ⟨gone, hgone, (hplaces.append_right gone).trans hperm⟩

/-- The UIDs `pop3_load` finds in the cache file a run starts with. -/
def oldCache (path : Bool) (disk : Option (List Char)) : List (List Char) :=
  match path, disk with
  | true, some s => ((loadFile s .empty).map Tree.keys).getD []
  | _, _ => []

/-- The UIDs the cache should hold: those of the old cache in the first listing, and
those committed, where a dropped mail counts when its DELE is acknowledged. -/
def Cached (old first kept acked : List (List Char)) (u : List Char) : Prop :=
  u ∈ old ∧ u ∈ first ∨ u ∈ kept ∨ u ∈ acked

/-- A cache file holds the UIDs it should, and `pop3_load` reads the same set back. -/
def SaveOk (old : List (List Char)) (s : Save) : Prop :=
  ∃ c : FetchPop3Tree, s.file = saveFile c ∧
    (∀ u, u ∈ c.keys ↔ Cached old s.first s.kept s.acked u) ∧
    ∃ t, loadFile s.file .empty = some t ∧ ∀ u, u ∈ t.keys ↔ u ∈ c.keys

/-- The cache files written are right, and the last of them is the one on disk now. -/
structure FilesOk (path : Bool) (disk now : Option (List Char)) (saves : List Save) :
    Prop where
  right : ∀ s ∈ saves, SaveOk (oldCache path disk) s
  last : now = (saves.getLast?.map Save.file).or disk

/-- What outlives a run. -/
def SavesOk (path : Bool) (disk : Option (List Char)) (e : Env) : Prop :=
  FilesOk path disk e.disk e.hist.saves

/-- The cache tree, the cache file and what both rest on. -/
structure CacheInv (path : Bool) (disk : Option (List Char)) (e : Env) : Prop where
  uidl : e.data.uidl = true
  hasPath : e.data.path = path
  fresh : e.hist.listings = [] → e.data.wantq = [] ∧ e.data.committed = 0 ∧
    e.data.cacheq = .empty ∧ e.hist.selected = [] ∧ e.disk = disk
  serverq : ∀ u ∈ e.data.serverq.keys, validUid u = true
  listed : ∀ L ∈ e.hist.listings, ∀ u ∈ L, validUid u = true
  cache : ∀ u, u ∈ e.data.cacheq.keys
    ↔ Cached (oldCache path disk) (e.hist.listings.headD []) e.hist.kept e.hist.acked u
  saves : SavesOk path disk e

/-- The invariant of a run with UIDL. -/
structure Base (path : Bool) (disk : Option (List Char)) (q : List (Mail FetchPop3Mail))
    (p : Phase) (m : Mail FetchPop3Mail) (e : Env) : Prop where
  shape : Shape q p m e
  ledger : Ledger q e
  cache : CacheInv path disk e

/-- The cache file can be saved. -/
theorem Base.savesOk {path : Bool} {disk : Option (List Char)}
    {q : List (Mail FetchPop3Mail)} {p : Phase} {m : Mail FetchPop3Mail} {e : Env}
    (h : Base path disk q p m e) : SavesOk path disk e := h.cache.saves

/-! ## What the dialogue does between the moves -/

/-- `e'` differs from `e` at most in what the invariant does not read. -/
def Unmoved (e e' : Env) : Prop :=
  ∃ cur num flushing size inbuf fault sent listing,
    e' = { e with
      data := { e.data with cur := cur, num := num, flushing := flushing, size := size }
      inbuf := inbuf
      fault := fault
      hist := { e.hist with sent := sent, listing := listing } }

/-- These fields belong to the dialogue alone. -/
theorem Unmoved.intro {e : Env} {cur num : ℕ} {flushing : Bool} {size : ℕ}
    {inbuf : List Received} {fault : Bool} {sent : List Sent} {listing : List FetchPop3Mail} :
    Unmoved e { e with
      data := { e.data with cur := cur, num := num, flushing := flushing, size := size }
      inbuf := inbuf
      fault := fault
      hist := { e.hist with sent := sent, listing := listing } } :=
  ⟨_, _, _, _, _, _, _, _, rfl⟩

section
variable {path : Bool} {disk : Option (List Char)} {q : List (Mail FetchPop3Mail)}
  {p : Phase} {m m' : Mail FetchPop3Mail} {e e' : Env} {fctx : Ctx} {conf : Conf}

/-- A step that only talks keeps the invariant. -/
theorem Base.unmoved (h : Base path disk q p m e) (hm : m'.auxdata = m.auxdata)
    (hu : Unmoved e e') : Base path disk q p m' e' := by
  obtain ⟨cur, num, flushing, size, inbuf, fault, sent, listing, rfl⟩ := hu
  obtain ⟨hs, hl, hc⟩ := h
  exact ⟨⟨hs.queued, hs.quiet, hs.init, hs.wanted, hm ▸ hs.fetch, hs.delete, hs.total⟩,
    ⟨hl.nodup, hl.first, hl.perm, hl.dropped⟩,
    ⟨hc.uidl, hc.hasPath, hc.fresh, hc.serverq, hc.listed, hc.cache, hc.saves⟩⟩

/-! ## Reading and writing lines -/

variable {P : Result → Prop}

/-- A reply is not there yet, is an error, or begins with `+OK`. -/
theorem getOkay_cases {k : List Char → Env → Result} (hblock : P (.block, fctx, e))
    (herror : ∀ inbuf, P (.error, fctx, { e with inbuf := inbuf }))
    (hk : ∀ line stale rest, e.inbuf = .line line stale :: rest → okay line = true →
      P (k line { e with inbuf := rest })) : P (getOkay fctx e k) := by
  apply getln_cases hblock (herror e.inbuf)
  intro line stale rest hbuf
  split_ifs with hok
  · exact hk line stale rest hbuf hok
  · exact herror rest

/-- A command is written, or the connection is gone. -/
theorem putln_cases {cmd : Cmd} {aux : Option FetchPop3Mail} {s : State}
    (herror : P (.error, fctx, e))
    (hok : P (.block, { fctx with state := s },
      { e with hist := { e.hist with sent := e.hist.sent ++ [⟨cmd, aux, e.hist.listing⟩] } })) :
    P (putln cmd aux s fctx e) := by
  unfold putln
  split_ifs
  · exact herror
  · exact hok

/-! ## The moves -/

/-- The server tree may be replaced by any tree of valid UIDs. -/
theorem Base.serverq (h : Base path disk q p m e) {t : FetchPop3Tree}
    (ht : ∀ u ∈ t.keys, validUid u = true) :
    Base path disk q p m { e with data := { e.data with serverq := t } } :=
  ⟨⟨h.shape.queued, h.shape.quiet, h.shape.init, h.shape.wanted, h.shape.fetch,
      h.shape.delete, h.shape.total⟩,
    ⟨h.ledger.nodup, h.ledger.first, h.ledger.perm, h.ledger.dropped⟩,
    ⟨h.cache.uidl, h.cache.hasPath, h.cache.fresh, ht, h.cache.listed, h.cache.cache,
      h.cache.saves⟩⟩

/-- Before the first listing there is nothing anywhere. -/
theorem Base.nothing (h : Base path disk q p m e) (hL : e.hist.listings = []) :
    q = [] ∧ e.data.wantq = [] ∧ e.data.dropq = [] ∧ e.hist.kept = [] ∧ e.hist.acked = []
      ∧ e.data.total = 0 := by
  obtain ⟨gone, -, hperm⟩ := h.ledger.perm
  obtain ⟨hwant, hcommitted, -, hsel, -⟩ := h.cache.fresh hL
  rw [hsel, List.perm_nil] at hperm
  simp only [places, List.append_eq_nil_iff, List.map_eq_nil_iff] at hperm
  obtain ⟨⟨⟨⟨⟨-, hfetched⟩, hdrop⟩, hkept⟩, hacked⟩, -⟩ := hperm
  have hq : q = [] := by
    cases q with
    | nil => rfl
    | cons x q =>
      have hx := h.shape.queued x List.mem_cons_self
      obtain ⟨aux, haux⟩ := Option.isSome_iff_exists.mp hx
      simp [fetched, haux] at hfetched
  refine ⟨hq, hwant, hdrop, hkept, hacked, ?_⟩
  rw [h.shape.total, hwant, hq, hdrop, hcommitted]
  rfl

/-- `fetch_line` at the end of a mail: it moves from the want queue to the loop. -/
theorem Base.take (h : Base path disk q .fetch m e) {aux : FetchPop3Mail}
    (haux : m.auxdata = some aux) (hm' : m'.auxdata = some aux) :
    Base path disk (q ++ [m']) .next {}
      { e with data := { e.data with wantq := e.data.wantq.erase aux } } := by
  obtain ⟨hs, hl, hc⟩ := h
  obtain ⟨aux', rest, hwant, haux'⟩ := hs.fetch rfl
  obtain rfl : aux = aux' := Option.some.inj (haux.symm.trans haux')
  have hL : e.hist.listings ≠ [] := fun hL => by
    rw [(hc.fresh hL).1] at hwant
    cases hwant
  have herase : e.data.wantq.erase aux = rest := by rw [hwant, List.erase_cons_head]
  rw [herase]
  refine ⟨⟨?_, by simp [Phase.quiet], by simp, by simp, by simp, by simp, ?_⟩, ⟨hl.nodup, hl.first, ?_,
    hl.dropped⟩, ⟨hc.uidl, hc.hasPath, fun h => absurd h hL, hc.serverq, hc.listed, hc.cache,
    hc.saves⟩⟩
  · intro x hx
    rcases List.mem_append.mp hx with hx | hx
    · exact hs.queued x hx
    · rw [List.mem_singleton.mp hx, hm']
      rfl
  · have := hs.total
    rw [hwant, List.length_cons] at this
    simp only [List.length_append, List.length_singleton]
    omega
  · apply hl.move
    intro u
    simp only [places, fetched, hwant, List.filterMap_append, List.filterMap_cons_some hm',
      List.filterMap_nil, List.map_append, List.map_cons, List.map_nil, List.count_append,
      List.count_cons, List.count_nil]
    omega

/-- Everything kept or deleted was selected. -/
theorem Ledger.mem_selected (h : Ledger q e) {u : List Char}
    (hu : u ∈ places q e) : u ∈ e.hist.selected := by
  obtain ⟨gone, -, hperm⟩ := h.perm
  exact hperm.subset (List.mem_append_left gone hu)

/-- The UIDs in the cache tree have all been listed by the server, so they are valid. -/
theorem Base.valid_cacheq (h : Base path disk q p m e) :
    ∀ u ∈ e.data.cacheq.keys, validUid u = true := by
  have hfirst : ∀ u ∈ e.hist.listings.headD [], validUid u = true := by
    intro u hu
    cases hL : e.hist.listings with
    | nil => simp [hL] at hu
    | cons L Ls =>
      rw [hL, List.headD_cons] at hu
      exact h.cache.listed L (by rw [hL]; exact List.mem_cons_self) u hu
  intro u hu
  rcases (h.cache.cache u).mp hu with ⟨-, hu⟩ | hu | hu
  · exact hfirst u hu
  · exact hfirst u (h.ledger.first u (h.ledger.mem_selected (by simp [places, hu])))
  · exact hfirst u (h.ledger.first u (h.ledger.mem_selected (by simp [places, hu])))

/-- `pop3_save` keeps the invariant, and the file it writes is right. -/
theorem Base.save (h : Base path disk q p m e) (hL : e.hist.listings ≠ [])
    (hsave : Pop3.save e = some e') : Base path disk q p m e' := by
  unfold Pop3.save at hsave
  split_ifs at hsave with hpath hfault
  · obtain rfl := Option.some.inj hsave
    exact h
  · obtain rfl := Option.some.inj hsave
    have hv := h.valid_cacheq
    obtain ⟨hs, hl, hc⟩ := h
    refine ⟨⟨hs.queued, hs.quiet, hs.init, hs.wanted, hs.fetch, hs.delete, hs.total⟩,
      ⟨hl.nodup, hl.first, hl.perm, hl.dropped⟩,
      ⟨hc.uidl, hc.hasPath, fun h => absurd h hL, hc.serverq, hc.listed, hc.cache, ?_, ?_⟩⟩
    · intro s hs
      rcases List.mem_append.mp hs with hs | hs
      · exact hc.saves.right s hs
      · obtain rfl := List.mem_singleton.mp hs
        exact ⟨e.data.cacheq, rfl, hc.cache, loadFile_saveFile hv⟩
    · simp

/-- `pop3_commit`. -/
theorem Base.commit (h : Base path disk q p m e) {n : ℕ} {x : Mail FetchPop3Mail}
    (dec : Decision) (hx : q[n]? = some x) :
    Fetch.Committed (fetcher conf) (Base path disk (q.eraseIdx n) p m) (SavesOk path disk)
      (Pop3.commit { x with decision := dec } e) := by
  have hmem : x ∈ q := List.mem_of_getElem? hx
  obtain ⟨aux, haux⟩ := Option.isSome_iff_exists.mp (h.shape.queued x hmem)
  have hL : e.hist.listings ≠ [] := fun hL => by
    rw [(h.nothing hL).1] at hmem
    cases hmem
  have hquiet : p.quiet ≠ true := fun hp => by
    rw [(h.shape.quiet hp).1] at hmem
    cases hmem
  have hlen : (q.eraseIdx n).length + 1 = q.length := by
    obtain ⟨hn, -⟩ := List.getElem?_eq_some_iff.mp hx
    exact List.length_eraseIdx_add_one hn
  have hfetched : (fetched q).Perm (aux :: fetched (q.eraseIdx n)) :=
    filterMap_eraseIdx_perm hx haux
  have hcount := List.perm_iff_count.mp (hfetched.map FetchPop3Mail.uid)
  have hqueued : ∀ y ∈ q.eraseIdx n, y.auxdata.isSome = true := fun y hy =>
    h.shape.queued y (List.mem_of_mem_eraseIdx hy)
  have hsaves := h.savesOk
  have htotal := h.shape.total
  unfold Pop3.commit
  simp only [haux]
  cases dec with
  | drop =>
    -- the mail waits for its DELE
    show Base path disk (q.eraseIdx n) p m
      { e with
        data := { e.data with dropq := e.data.dropq ++ [aux] }
        hist := { e.hist with dropped := e.hist.dropped ++ [aux.uid] } }
    obtain ⟨hs, hl, hc⟩ := h
    refine ⟨⟨hqueued, fun hp => absurd hp hquiet, hs.init, hs.wanted, hs.fetch,
        fun _ => by simp, ?_⟩, ⟨hl.nodup, hl.first, ?_, ?_⟩,
      ⟨hc.uidl, hc.hasPath, fun h => absurd h hL, hc.serverq, hc.listed, hc.cache, hc.saves⟩⟩
    · simp only [List.length_append, List.length_singleton]
      omega
    · apply hl.move
      intro u
      have := hcount u
      simp only [places, List.map_append, List.map_cons, List.map_nil, List.count_append,
        List.count_cons, List.count_nil] at this ⊢
      omega
    · rw [hl.dropped, List.map_append, List.append_assoc]
      rfl
  | keep =>
    -- the mail is in the cache from now on
    have hkeep : Base path disk (q.eraseIdx n) p m
        { e with
          data := { e.data with
            cacheq := addCache aux e.data.cacheq
            committed := e.data.committed + 1 }
          hist := { e.hist with kept := e.hist.kept ++ [aux.uid] } } := by
      obtain ⟨hs, hl, hc⟩ := h
      refine ⟨⟨hqueued, fun hp => absurd hp hquiet, hs.init, hs.wanted, hs.fetch, hs.delete,
          ?_⟩, ⟨hl.nodup, hl.first, ?_, hl.dropped⟩,
        ⟨hc.uidl, hc.hasPath, fun h => absurd h hL, hc.serverq, hc.listed, ?_, hc.saves⟩⟩
      · dsimp only
        omega
      · apply hl.move
        intro u
        have := hcount u
        simp only [places, List.map_cons, List.count_append, List.count_cons,
          List.count_nil] at this ⊢
        omega
      · intro u
        rw [mem_keys_addCache, hc.cache u]
        simp only [Cached, List.mem_append, List.mem_singleton]
        tauto
    split_ifs with honly
    · cases hsave : Pop3.save _ with
      | none => exact hsaves
      | some e' => exact hkeep.save hL hsave
    · exact hkeep

/-! ## The state functions -/

/-- What a state function has to give back. -/
def Good (conf : Conf) (path : Bool) (disk : Option (List Char))
    (q : List (Mail FetchPop3Mail)) : Result → Prop :=
  Outcome conf (fetcher conf) (fun q c e => Base path disk q c.state.phase c.mail e)
    (fun q e => q = [] ∧ SavesOk path disk e) (SavesOk path disk) q

/-- A command is sent and the dialogue goes on in a state of phase `p'`. -/
theorem good_putln {cmd : Cmd} {aux : Option FetchPop3Mail} {s : State}
    (h : Base path disk q s.phase fctx.mail e) :
    Good conf path disk q (putln cmd aux s fctx e) :=
  putln_cases (P := Good conf path disk q) h.savesOk (h.unmoved rfl .intro)

/-- Most states wait for a positive reply and then do something. -/
theorem good_getOkay {k : List Char → Env → Result}
    (h : Base path disk q fctx.state.phase fctx.mail e)
    (hk : ∀ line inbuf, Base path disk q fctx.state.phase fctx.mail { e with inbuf := inbuf } →
      Good conf path disk q (k line { e with inbuf := inbuf })) :
    Good conf path disk q (getOkay fctx e k) := by
  refine getOkay_cases (P := Good conf path disk q) h (fun _ => h.savesOk) ?_
  intro line _ rest _ _
  exact hk line rest (h.unmoved rfl .intro)

/-- A phase in which nothing is fetched may be entered from any other such phase with a
want queue. -/
theorem Base.toIdle (h : Base path disk q p m e) (hq : q = []) (hdrop : e.data.dropq = [])
    (hwant : e.hist.listings = [] ∨ e.data.wantq ≠ []) : Base path disk q .idle m' e :=
  ⟨⟨h.shape.queued, fun _ => ⟨hq, hdrop⟩, by simp, fun _ => hwant, by simp, by simp,
    h.shape.total⟩, h.ledger, h.cache⟩

/-- With nothing left to do, the fetcher may quit. -/
theorem Base.toQuit (h : Base path disk q p m e) (hq : q = []) (hdrop : e.data.dropq = []) :
    Base path disk q .quit m' e :=
  ⟨⟨h.shape.queued, fun _ => ⟨hq, hdrop⟩, by simp, by simp, by simp, by simp,
    h.shape.total⟩, h.ledger, h.cache⟩

theorem good_stateInit (h : Base path disk q .init fctx.mail e) :
    Good conf path disk q (stateInit fctx e) := by
  have hL := h.shape.init rfl
  obtain ⟨hq, hwant, hdrop, -, -, htotal⟩ := h.nothing hL
  obtain ⟨-, hcommitted, hcache, -⟩ := h.cache.fresh hL
  have hbase : Base path disk q .idle fctx.mail
      { e with data := { e.data with serverq := .empty } } :=
    (h.serverq (by simp)).toIdle hq hdrop (.inl hL)
  -- at the start of a run there is nothing to wipe
  have hdata : ({ e.data with
      serverq := .empty, cacheq := .empty, wantq := [], dropq := []
      total := 0, committed := 0 } : FetchPop3Data) = { e.data with serverq := .empty } := by
    simp only [hwant, hdrop, htotal, hcommitted, hcache]
  unfold stateInit
  rw [hdata]
  exact hbase

/-- On a new connection nothing has been received or listed. -/
theorem good_stateConnect (h : Base path disk q .idle fctx.mail e) :
    Good conf path disk q (stateConnect fctx e) := by
  unfold stateConnect
  split_ifs
  · exact h.savesOk
  · exact h.unmoved rfl .intro

/-- The greeting is all that is read. -/
theorem good_stateConnected (hp : fctx.state.phase = .idle)
    (h : Base path disk q .idle fctx.mail e) :
    Good conf path disk q (stateConnected fctx e) := by
  apply good_getOkay (by rwa [hp])
  intro line inbuf h
  rw [hp] at h
  split
  · exact good_putln h
  · exact good_putln h

theorem good_stateUser (hp : fctx.state.phase = .idle)
    (h : Base path disk q .idle fctx.mail e) : Good conf path disk q (stateUser fctx e) := by
  apply good_getOkay (by rwa [hp])
  intro line inbuf h
  rw [hp] at h
  exact good_putln h

/-- `STAT` gives the number of the mails. -/
theorem good_stateStat (hp : fctx.state.phase = .idle)
    (h : Base path disk q .idle fctx.mail e) : Good conf path disk q (stateStat fctx e) := by
  apply good_getOkay (by rwa [hp])
  intro line inbuf h
  rw [hp] at h
  exact good_putln h

/-- `UIDL` is asked for. -/
theorem good_stateCache1 (hp : fctx.state.phase = .idle)
    (h : Base path disk q .idle fctx.mail e) :
    Good conf path disk q (stateCache1 fctx e) := by
  apply good_getOkay (by rwa [hp])
  intro line inbuf h
  rw [hp] at h
  exact h.serverq (by simp)

theorem good_stateReconnect (hp : fctx.state.phase = .idle)
    (h : Base path disk q .idle fctx.mail e) :
    Good conf path disk q (stateReconnect fctx e) := by
  apply good_getOkay (by rwa [hp])
  intro line inbuf h
  rw [hp] at h
  exact h.unmoved rfl .intro

/-- An empty maildrop: either the fetch is over before it began, or the dialogue goes on
with the want queue as it is. -/
theorem Base.emptyListing (h : Base path disk q .idle m e) :
    Base path disk q .next m { e with hist := { e.hist with listings := e.hist.listings ++ [[]] } } := by
  have hhead : (e.hist.listings ++ [[]]).headD [] = e.hist.listings.headD [] := by
    cases e.hist.listings <;> rfl
  obtain ⟨hs, hl, hc⟩ := h
  refine ⟨⟨hs.queued, by simp [Phase.quiet], by simp, by simp, by simp, by simp, hs.total⟩,
    ⟨hl.nodup, ?_, ?_, hl.dropped⟩,
    ⟨hc.uidl, hc.hasPath, by simp, hc.serverq, ?_, ?_, hc.saves⟩⟩
  · intro u hu
    rw [hhead]
    exact hl.first u hu
  · obtain ⟨gone, hgone, hperm⟩ := hl.perm
    refine ⟨gone, fun u hu => ?_, hperm⟩
    obtain ⟨L, hL, hu⟩ := hgone u hu
    exact ⟨L, List.mem_append_left _ hL, hu⟩
  · intro L hL u hu
    rcases List.mem_append.mp hL with hL | hL
    · exact hc.listed L hL u hu
    · rw [List.mem_singleton.mp hL] at hu
      cases hu
  · intro u
    rw [hhead]
    exact hc.cache u

theorem good_stateFirst (hp : fctx.state.phase = .idle)
    (h : Base path disk q .idle fctx.mail e) :
    Good conf path disk q (stateFirst fctx e) := by
  apply good_getOkay (by rwa [hp])
  intro line inbuf h
  rw [hp] at h
  split
  · next num n heq =>
    have hnum : Base path disk q .idle fctx.mail
        { e with inbuf := inbuf, data := { e.data with num := num, cur := 0 } } :=
      h.unmoved rfl .intro
    obtain ⟨hq, hdrop⟩ := hnum.shape.quiet rfl
    dsimp only
    split_ifs with hzero htotal huidl
    · exact hnum.emptyListing
    · exact good_putln (hnum.emptyListing.toQuit hq hdrop)
    · rw [hnum.cache.uidl] at huidl
      cases huidl
    · exact good_putln hnum
  · exact h.savesOk

/-- By induction over the lines: each line of the listing is added to the tree of the server. -/
theorem good_cache2Loop (hp : fctx.state.phase = .idle) (inbuf : List Received)
    (h : Base path disk q .idle fctx.mail e) :
    Good conf path disk q (cache2Loop fctx inbuf e) := by
  induction inbuf generalizing e with
  | nil =>
    unfold cache2Loop
    split_ifs
    · exact h.unmoved rfl .intro
    · show Base path disk q fctx.state.phase fctx.mail _
      rw [hp]
      exact h.unmoved rfl .intro
  | cons r rest ih =>
    unfold cache2Loop
    split_ifs
    · exact h.unmoved rfl .intro
    · cases r with
      | broken => exact h.savesOk
      | line s stale =>
        dsimp only
        split
        · next n heq =>
          split_ifs
          · exact h.savesOk
          · split
            · exact h.savesOk
            · next c uid huid =>
              split_ifs with hbad
              · exact h.savesOk
              · -- a new UID, which has passed the checks
                have hvalid : validUid uid = true := by
                  simp only [Bool.or_eq_true, Bool.not_eq_true', not_or,
                    Bool.not_eq_false] at hbad
                  exact hbad.1
                apply ih
                refine Base.unmoved (h.serverq (t := e.data.serverq.insert ⟨uid, n⟩) ?_) rfl .intro
                intro u hu
                rcases Tree.mem_keys_insert.mp hu with rfl | hu
                · exact hvalid
                · exact h.cache.serverq u hu
        · exact h.savesOk

/-- What `pop3_load` puts into an empty cache tree. -/
theorem mem_keys_load {c : FetchPop3Tree} (hpath : e.data.path = path) (hdisk : e.disk = disk)
    (hcache : e.data.cacheq = .empty) (hload : load e = some c) (u : List Char) :
    u ∈ c.keys ↔ u ∈ oldCache path disk := by
  unfold load at hload
  rw [hpath, hdisk, hcache] at hload
  unfold oldCache
  cases path with
  | false =>
    obtain rfl : Tree.empty = c := by simpa using hload
    simp
  | true =>
    cases hfault : e.fault with
    | true => simp [hfault] at hload
    | false =>
      cases disk with
      | none =>
        obtain rfl : Tree.empty = c := by simpa [hfault] using hload
        simp
      | some s =>
        have : loadFile s .empty = some c := by simpa [hfault] using hload
        simp [this]

/-- While connecting, the total is zero before the first listing only. -/
theorem Base.listings_eq_nil (h : Base path disk q .idle m e) (htotal : e.data.total = 0) :
    e.hist.listings = [] := by
  have hzero := h.shape.total
  rw [htotal] at hzero
  rcases h.shape.wanted rfl with hL | hne
  · exact hL
  · exact absurd (List.eq_nil_of_length_eq_zero (by omega)) hne

/-- What is wanted is what is on the server and not in the cache. -/
theorem Base.buildWantq (h : Base path disk q .idle m e) (htotal : e.data.total = 0)
    {c : FetchPop3Tree} (hload : load e = some c) :
    Base path disk q .next m' (Pop3.buildWantq (weed e.data.serverq c) e) := by
  have hL := h.listings_eq_nil htotal
  obtain ⟨hq, hwant, hdrop, hkept, hacked, -⟩ := h.nothing hL
  obtain ⟨-, hcommitted, hcache, -, hdisk⟩ := h.cache.fresh hL
  have hkeys := mem_keys_load h.cache.hasPath hdisk hcache hload
  obtain ⟨hs, hl, hc⟩ := h
  subst hq
  have hsub := selection_sublist e.data.only e.data.serverq (weed e.data.serverq c)
  have hperm := foldl_insertByIdx_perm
    (selection e.data.only e.data.serverq (weed e.data.serverq c)) e.data.wantq
  rw [hwant, List.append_nil] at hperm
  unfold Pop3.buildWantq
  rw [hwant]
  refine ⟨⟨hs.queued, by simp [Phase.quiet], by simp, by simp, by simp, by simp, ?_⟩,
    ⟨?_, ?_, ⟨[], by simp, ?_⟩, ?_⟩,
    ⟨hc.uidl, hc.hasPath, by simp, hc.serverq, ?_, ?_, hc.saves⟩⟩
  · have := hperm.length_eq
    simp only [htotal, hdrop, hcommitted, List.length_nil]
    omega
  · -- the server tree has every UID once
    exact e.data.serverq.nodup_keys.sublist (hsub.map _)
  · intro u hu
    simp only [hL, List.nil_append, List.headD_cons]
    exact (hsub.map FetchPop3Mail.uid).subset hu
  · simpa [places, fetched, hdrop, hkept, hacked] using hperm.map FetchPop3Mail.uid
  · have := hl.dropped
    simpa [hdrop, hacked] using this
  · intro L hL' u hu
    simp only [hL, List.nil_append, List.mem_singleton] at hL'
    subst hL'
    exact hc.serverq u hu
  · intro u
    rw [mem_keys_weed, hkeys]
    simp [Cached, hL, hkept, hacked]

/-- The cache is loaded, and what is wanted is chosen. -/
theorem good_cache3Select (h : Base path disk q .idle fctx.mail e)
    (htotal : e.data.total = 0) : Good conf path disk q (cache3Select fctx e) := by
  obtain ⟨hq, hdrop⟩ := h.shape.quiet rfl
  unfold cache3Select
  cases hload : load e with
  | none => exact h.savesOk
  | some c =>
    have hnext : Base path disk q .next fctx.mail (buildWantq (weed e.data.serverq c) e) :=
      h.buildWantq htotal hload
    dsimp only
    split_ifs
    · exact good_putln (hnext.toQuit hq hdrop)
    · exact hnext

/-- The UIDs that re-indexing removes are those the new session does not list. -/
theorem Base.reindex (h : Base path disk q .idle m e) (htotal : e.data.total ≠ 0) :
    Base path disk q .next m'
      { e with
        data := { e.data with
          wantq := Pop3.reindex e.data.serverq e.data.wantq
          total := e.data.total
            - (e.data.wantq.length - (Pop3.reindex e.data.serverq e.data.wantq).length) }
        hist := { e.hist with listings := e.hist.listings ++ [e.data.serverq.keys] } } := by
  have hL : e.hist.listings ≠ [] := fun hL => htotal (h.nothing hL).2.2.2.2.2
  have hhead : (e.hist.listings ++ [e.data.serverq.keys]).headD []
      = e.hist.listings.headD [] := by
    obtain ⟨L, Ls, hLs⟩ := List.exists_cons_of_ne_nil hL
    rw [hLs]
    rfl
  obtain ⟨hs, hl, hc⟩ := h
  refine ⟨⟨hs.queued, by simp [Phase.quiet], by simp, by simp, by simp, by simp, ?_⟩,
    ⟨hl.nodup, ?_, ?_, hl.dropped⟩,
    ⟨hc.uidl, hc.hasPath, by simp, hc.serverq, ?_, ?_, hc.saves⟩⟩
  · have := reindex_length_le e.data.serverq e.data.wantq
    have := hs.total
    dsimp only
    omega
  · intro u hu
    rw [hhead]
    exact hl.first u hu
  · obtain ⟨gone, hgone, hperm⟩ := hl.perm
    -- what is removed joins what had vanished before
    refine ⟨(e.data.wantq.map FetchPop3Mail.uid).filter
      (fun u => !(e.data.serverq.find u).isSome) ++ gone, ?_, List.Perm.trans ?_ hperm⟩
    · intro u hu
      rcases List.mem_append.mp hu with hu | hu
      · have hnot := (List.mem_filter.mp hu).2
        refine ⟨e.data.serverq.keys, by simp, ?_⟩
        intro hmem
        rw [← Tree.find_isSome] at hmem
        simp [hmem] at hnot
      · obtain ⟨L, hL, hu⟩ := hgone u hu
        exact ⟨L, List.mem_append_left _ hL, hu⟩
    · have hsplit := List.perm_iff_count.mp
        (List.filter_append_perm (fun u => (e.data.serverq.find u).isSome)
          (e.data.wantq.map FetchPop3Mail.uid))
      rw [List.perm_iff_count]
      intro u
      have := hsplit u
      simp only [places, reindex_map_uid, List.count_append] at this ⊢
      omega
  · intro L hL' u hu
    rcases List.mem_append.mp hL' with hL' | hL'
    · exact hc.listed L hL' u hu
    · rw [List.mem_singleton.mp hL'] at hu
      exact hc.serverq u hu
  · intro u
    rw [hhead]
    exact hc.cache u

theorem good_stateCache3 (hp : fctx.state.phase = .idle)
    (h : Base path disk q .idle fctx.mail e) :
    Good conf path disk q (stateCache3 fctx e) := by
  refine getln_cases (P := Good conf path disk q) ?_ h.savesOk ?_
  · show Base path disk q fctx.state.phase fctx.mail e
    rwa [hp]
  · intro line stale rest _
    have h' : Base path disk q .idle fctx.mail { e with inbuf := rest } := h.unmoved rfl .intro
    split_ifs with hend htotal
    · exact h.savesOk
    · exact good_cache3Select h' htotal
    · exact h'.reindex htotal

/-- A mail to delete comes first, then the next one that is wanted; with none left, the fetcher
waits or quits. -/
theorem good_stateNext (hp : fctx.state = .next) (hempty : fctx.flags.empty = q.isEmpty)
    (h : Base path disk q .next fctx.mail e) : Good conf path disk q (stateNext fctx e) := by
  have htotal := h.shape.total
  unfold stateNext
  split
  · next aux dropq hdrop =>
    apply good_putln
    exact ⟨⟨h.shape.queued, by simp [State.phase, Phase.quiet], by simp [State.phase],
      by simp [State.phase], by simp [State.phase], fun _ => by simp [hdrop], htotal⟩,
      h.ledger, h.cache⟩
  · next hdrop =>
    split
    · next hwant =>
      split_ifs with hcommitted
      · show Base path disk q fctx.state.phase fctx.mail e
        rwa [hp]
      · -- nothing is wanted, waiting or uncommitted, so nothing is fetched either
        have hq : q = [] := by
          rw [not_not] at hcommitted
          simp only [hwant, hdrop, List.length_nil] at htotal
          exact List.eq_nil_of_length_eq_zero (by omega)
        exact good_putln (h.toQuit hq hdrop)
    · next aux rest hwant =>
      split_ifs with hpurge hflag
      · have hq : q = [] := by
          rw [hempty] at hflag
          exact List.isEmpty_iff.mp hflag
        exact good_putln (h.toIdle hq hdrop (.inr (by simp [hwant])))
      · show Base path disk q fctx.state.phase fctx.mail e
        rwa [hp]
      · apply good_putln
        exact ⟨⟨h.shape.queued, by simp [State.phase, Phase.quiet], by simp [State.phase],
          by simp [State.phase], fun _ => ⟨aux, rest, hwant, rfl⟩, by simp [State.phase],
          htotal⟩, h.ledger, h.cache⟩

/-- A drop is acknowledged. -/
theorem Base.ack (h : Base path disk q .delete m e) {aux : FetchPop3Mail}
    {dropq : List FetchPop3Mail} (hdrop : e.data.dropq = aux :: dropq)
    (m' : Mail FetchPop3Mail) : Base path disk q .next m'
      { e with
        data := { e.data with
          dropq := dropq
          cacheq := addCache aux e.data.cacheq
          committed := e.data.committed + 1 }
        hist := { e.hist with acked := e.hist.acked ++ [aux.uid] } } := by
  have hL : e.hist.listings ≠ [] := fun hL => by
    rw [(h.nothing hL).2.2.1] at hdrop
    cases hdrop
  obtain ⟨hs, hl, hc⟩ := h
  refine ⟨⟨hs.queued, by simp [Phase.quiet], by simp, by simp, by simp, by simp, ?_⟩,
    ⟨hl.nodup, hl.first, ?_, ?_⟩,
    ⟨hc.uidl, hc.hasPath, fun h => absurd h hL, hc.serverq, hc.listed, ?_, hc.saves⟩⟩
  · have := hs.total
    rw [hdrop, List.length_cons] at this
    dsimp only
    omega
  · apply hl.move
    intro u
    simp only [places, hdrop, List.map_cons, List.count_append, List.count_cons,
      List.count_nil]
    omega
  · rw [hl.dropped, hdrop, List.map_cons, List.append_assoc]
    rfl
  · intro u
    rw [mem_keys_addCache, hc.cache u]
    simp only [Cached, List.mem_append, List.mem_singleton]
    tauto

/-- The answer to `DELE`: what was acknowledged may be put into the cache. -/
theorem good_stateDelete (hp : fctx.state = .delete)
    (h : Base path disk q .delete fctx.mail e) :
    Good conf path disk q (stateDelete fctx e) := by
  apply good_getOkay (by rwa [hp])
  intro line inbuf h
  rw [hp] at h
  split
  · exact h.savesOk
  · next aux dropq hdrop =>
    have hsaves := h.savesOk
    have hL : e.hist.listings ≠ [] := fun hL => by
      rw [(h.nothing hL).2.2.1] at hdrop
      cases hdrop
    have hack := h.ack hdrop fctx.mail
    dsimp only at hack ⊢
    split_ifs
    · cases hsave : save _ with
      | none => exact hsaves
      | some e' => exact hack.save hL hsave
    · exact hack

/-- The size of the mail is read. -/
theorem good_stateList (hp : fctx.state.phase = .fetch)
    (h : Base path disk q .fetch fctx.mail e) :
    Good conf path disk q (stateList fctx e) := by
  apply good_getOkay (by rwa [hp])
  intro line inbuf h
  rw [hp] at h
  split
  · dsimp only
    split_ifs
    · exact h.savesOk
    · exact good_putln (h.unmoved rfl .intro)
  · exact h.savesOk
  · exact h.savesOk

theorem good_stateRetr (hp : fctx.state.phase = .fetch)
    (h : Base path disk q .fetch fctx.mail e) :
    Good conf path disk q (stateRetr fctx e) := by
  apply good_getOkay (by rwa [hp])
  intro line inbuf h
  rw [hp] at h
  split_ifs
  · exact h.savesOk
  · exact h.unmoved rfl .intro

/-- By induction over the lines of the mail. -/
theorem good_lineLoop (hp : fctx.state.phase = .fetch) (inbuf : List Received)
    (h : Base path disk q .fetch m e) :
    Good conf path disk q (lineLoop conf fctx inbuf m e) := by
  induction inbuf generalizing m e with
  | nil =>
    show Base path disk q fctx.state.phase m { e with inbuf := [] }
    rw [hp]
    exact h.unmoved rfl .intro
  | cons r rest ih =>
    cases r with
    | broken => exact h.savesOk
    | line s stale =>
      rw [lineLoop]
      split_ifs with hdot hflushing hfault
      · -- the mail is complete
        obtain ⟨aux, _, _, haux⟩ := h.shape.fetch rfl
        rw [haux]
        refine Outcome.mail h.savesOk (fun m' hm' => ?_) fun q' n x h' hx => h'.commit .drop hx
        exact (h.take haux (hm'.trans haux)).unmoved rfl .intro
      · exact ih h
      · exact h.savesOk
      · exact ih (h.unmoved rfl .intro)

/-- The last answer ends the session. -/
theorem good_stateQuit (hp : fctx.state.phase = .quit)
    (h : Base path disk q .quit fctx.mail e) :
    Good conf path disk q (stateQuit fctx e) := by
  apply good_getOkay (by rwa [hp])
  intro line inbuf h
  rw [hp] at h
  exact ⟨(h.shape.quiet rfl).1, h.savesOk⟩

/-- Every state function keeps the invariant. -/
theorem good_state (hempty : fctx.flags.empty = q.isEmpty)
    (h : Base path disk q fctx.state.phase fctx.mail e) :
    Good conf path disk q (state conf fctx e) := by
  obtain ⟨s, f, m⟩ := fctx
  cases s with
  | init => exact good_stateInit h
  | connect => exact good_stateConnect h
  | connected => exact good_stateConnected rfl h
  | user => exact good_stateUser rfl h
  | stat => exact good_stateStat rfl h
  | first => exact good_stateFirst rfl h
  | cache1 => exact good_stateCache1 rfl h
  | cache2 => exact good_cache2Loop rfl _ h
  | cache3 => exact good_stateCache3 rfl h
  | next => exact good_stateNext rfl hempty h
  | delete => exact good_stateDelete rfl h
  | reconnect => exact good_stateReconnect rfl h
  | list => exact good_stateList rfl h
  | retr => exact good_stateRetr rfl h
  | line => exact good_lineLoop rfl _ h
  | quit => exact good_stateQuit rfl h

end

/-! ## The invariant of the fetch loop -/

/-- `Base` as an invariant of every run. -/
def base (conf : Conf) (path : Bool) (disk : Option (List Char)) :
    LoopInv (fetcher conf) conf noCallGuard noCommitGuard where
  run q c e := Base path disk q c.state.phase c.mail e
  done q e := q = [] ∧ SavesOk path disk e
  dead := SavesOk path disk
  run_dead h := h.savesOk
  done_dead h := h.2
  dead_abort h := h
  dead_auxfree h := h
  run_flags _ _ h := h
  run_input i h := by cases i <;> exact h.unmoved rfl .intro
  done_input i h := by cases i <;> exact h
  state h _ hempty := good_state hempty h
  commit dec h hx _ := h.commit dec hx
  commit_done dec h hx _ := by
    rw [h.1] at hx
    cases hx

section
variable {conf : Conf} {poll path : Bool} {only : FetchOnly} {apop : Bool}
  {user pass : List Char} {disk : Option (List Char)} {l : Loop Env State FetchPop3Mail}

/-- `Base` holds in every state of a run with UIDL. -/
theorem holds_base
    (h : Lib.Runs.Reach (step (fetcher conf) conf) Lib.Runs.anyStep
      (begin conf poll path only true apop user pass disk) l) :
    (base conf path disk).Holds l := by
  refine LoopInv.holds_reach_any ?_ h
  refine ⟨⟨by simp, fun _ => ⟨rfl, rfl⟩, fun _ => rfl, ?_, ?_, ?_, rfl⟩,
    ⟨.nil, by simp, ⟨[], by simp, .refl _⟩, rfl⟩,
    ⟨rfl, rfl, fun _ => ⟨rfl, rfl, rfl, rfl, rfl⟩, by simp, by simp, by simp [Cached], ?_⟩⟩
  · simp [fetcher, State.phase]
  · simp [fetcher, State.phase]
  · simp [fetcher, State.phase]
  · exact ⟨by simp, rfl⟩

end

end Fdm.Pop3
