import Fdm.Imap.Defs
import Mathlib.Data.List.Perm.Basic

/-!
# One IMAP folder at a time

Between two folders the fetcher holds no mail (`Front`). In a folder, every UID that the
search found is in exactly one place, from the want list to the acknowledged `STORE`s, and
`total` and `committed` count the whole and the last of these places (`InFolder`).

The second half needs `committedGuard`: `imap_state_search3` sets `total` for the new
folder and leaves `committed` as the folder before left it.
-/

namespace Fdm.Imap

open Fdm.Fetch Lib.Scanf

/-- When the search of a folder has found mails, none is counted as committed yet. -/
def committedGuard (_ : List (Mail FetchImapMail)) (s : State) (_ : Mail FetchImapMail)
    (e : Env) : Prop :=
  s = .search3 → e.data.wanted ≠ [] → e.data.committed = 0

/-! ## The invariant -/

/-- The lists and counters that say where the mails of a folder are. -/
structure Tally where
  wanted : List ℕ
  dropped : List ℕ
  kept : List ℕ
  selected : List ℕ
  storing : List ℕ
  stored : List ℕ
  total : ℕ
  committed : ℕ

/-- The tally of a state. -/
def tally (e : Env) : Tally where
  wanted := e.data.wanted
  dropped := e.data.dropped
  kept := e.data.kept
  selected := e.hist.selected
  storing := e.hist.storing
  stored := e.hist.stored
  total := e.data.total
  committed := e.data.committed

/-- The states outside a folder, or in one whose search is not done. -/
def State.front : State → Bool
  | .next | .body | .line | .mail | .commit | .expunge => false
  | _ => true

/-- The states from the `SELECT` of a folder to the end of its search. -/
def State.opening : State → Bool
  | .select2 | .select3 | .select4 | .search1 | .search2 | .search3 => true
  | _ => false

/-- The UID of a mail, if it has one. -/
def uidOf (m : Mail FetchImapMail) : Option ℕ := m.auxdata.map FetchImapMail.uid

/-- The UIDs of the mails fetched and not yet committed. -/
def fetched (q : List (Mail FetchImapMail)) : List ℕ := q.filterMap uidOf

/-- The UID of the mail that is being read. -/
def inHand (s : State) (m : Mail FetchImapMail) : List ℕ :=
  match s with
  | .line | .mail => (uidOf m).toList
  | _ => []

/-- Outside a folder no mail is on its way; the search has just filled the want list. -/
structure Front (poll : Bool) (s : State) (q : List (Mail FetchImapMail)) (t : Tally) :
    Prop where
  queue : q = []
  dropped : t.dropped = []
  kept : t.kept = []
  wanted : poll = false → t.wanted = if s = .search3 then t.selected else []
  fresh : s.opening = true → t.storing = [] ∧ t.stored = []

/-- All the places a mail of the folder can be in. -/
def places (s : State) (m : Mail FetchImapMail) (q : List (Mail FetchImapMail)) (t : Tally) :
    List ℕ :=
  t.wanted ++ inHand s m ++ fetched q ++ t.dropped ++ t.kept ++ t.storing ++ t.stored

/-- In a folder each mail is in one place, and the counters count the first list and the
last. -/
structure InFolder (s : State) (m : Mail FetchImapMail) (q : List (Mail FetchImapMail))
    (t : Tally) : Prop where
  places : (places s m q t).Perm t.selected
  total : t.total = t.selected.length
  committed : t.committed = t.stored.length
  storing : t.storing.length = if s = .commit then 1 else 0
  queued : ∀ x ∈ q, x.auxdata.isSome
  hand : s = .line ∨ s = .mail → m.auxdata.isSome

/-- What holds while the fetch goes on. -/
structure Sound (poll : Bool) (q : List (Mail FetchImapMail)) (c : Ctx) (t : Tally) : Prop where
  flag : c.flags.poll = poll
  front : c.state.front = true → Front poll c.state q t
  folder : c.state.front = false → poll = false ∧ InFolder c.state c.mail q t

/-- What a state function has to give back. -/
def Good (conf : Conf) (pton : List Char → Option (List Char)) (poll : Bool)
    (q : List (Mail FetchImapMail)) : Result → Prop :=
  Outcome conf (fetcher conf pton) (fun q c e => Sound poll q c (tally e)) (fun _ _ => True)
    (fun _ => True) q

section
variable {conf : Conf} {pton : List Char → Option (List Char)} {poll : Bool}
  {q : List (Mail FetchImapMail)} {m : Mail FetchImapMail} {c : Ctx} {e : Env} {s : State}
  {t : Tally}

/-! ## Sending and receiving -/

/-- What comes of reading a line: none is there, an error, or one of the type that is looked for. -/
theorem getlnLoop_cases {P : Result → Prop} {type : LineType} {k : List Char → Env → Result}
    (hblock : P (.block, c, { e with inbuf := [] }))
    (herror : ∀ b, P (.error, c, { e with inbuf := b }))
    (hk : ∀ line b, P (k line { e with inbuf := b })) (b : List Received) :
    P (getlnLoop type c e k b) := by
  induction b with
  | nil => exact hblock
  | cons r b ih =>
    cases r with
    | broken => exact herror e.inbuf
    | line s stale =>
      unfold getlnLoop
      split
      · exact herror b
      · exact ih
      · exact hk _ b

/-- Reading a line: nothing has changed but the lines that are left. -/
theorem imapGetln_cases {P : Result → Prop} {type : LineType} {k : List Char → Env → Result}
    (hblock : P (.block, c, { e with inbuf := [] }))
    (herror : ∀ b, P (.error, c, { e with inbuf := b }))
    (hk : ∀ line b, P (k line { e with inbuf := b })) : P (imapGetln type c e k) :=
  getlnLoop_cases hblock herror hk e.inbuf

/-- Reading a line changes nothing that is counted. -/
theorem good_getln {type : LineType} {k : List Char → Env → Result}
    (h : Sound poll q c (tally e))
    (hk : ∀ line b, Good conf pton poll q (k line { e with inbuf := b })) :
    Good conf pton poll q (imapGetln type c e k) :=
  imapGetln_cases (P := Good conf pton poll q) h (fun _ => trivial) hk

/-- Neither does waiting for an answer that is to be OK. -/
theorem good_getOkay {k : Env → Result} (h : Sound poll q c (tally e))
    (hk : ∀ b, Good conf pton poll q (k { e with inbuf := b })) :
    Good conf pton poll q (getOkay c e k) := by
  refine good_getln h fun line b => ?_
  by_cases hok : imapOkay line
  · rw [if_pos hok]
    exact hk b
  · rw [if_neg hok]
    exact trivial

/-- Nor sending a line. -/
theorem good_putln {cmd : Cmd} (h : Sound poll q { c with state := s } (tally e)) :
    Good conf pton poll q (putln cmd s c e) := by
  unfold putln
  by_cases hfault : e.fault
  · rw [if_pos hfault]
    exact trivial
  · rw [if_neg hfault]
    exact h

theorem good_putTagged {cmd : Cmd} (h : Sound poll q { c with state := s } (tally e)) :
    Good conf pton poll q (putTagged cmd s c e) := good_putln h

/-! ## Between folders -/

/-- From one state outside a folder to another that asks for no more. -/
def State.leads (s s' : State) : Bool :=
  s.front && s'.front && (!s'.opening || s.opening) && s ≠ .search3 && s' ≠ .search3

/-- Before a folder is open, one state leads to another. -/
theorem Front.move {s' : State} (h : Front poll s q t) (hm : s.leads s' = true) :
    Front poll s' q t where
  queue := h.queue
  dropped := h.dropped
  kept := h.kept
  wanted hp := by
    simp only [State.leads, Bool.and_eq_true, decide_eq_true_eq] at hm
    rw [h.wanted hp, if_neg hm.1.2, if_neg hm.2]
  fresh ho := by
    simp only [State.leads, Bool.and_eq_true, ho, Bool.not_true, Bool.false_or] at hm
    exact h.fresh hm.1.1.2

/-- A front invariant is all there is to show for a state outside a folder. -/
theorem Sound.of_front (hflag : c.flags.poll = poll) (hs : c.state.front = true)
    (hf : Front poll c.state q t) : Sound poll q c t where
  flag := hflag
  front _ := hf
  folder hfalse := by
    rw [hs] at hfalse
    exact absurd hfalse (by decide)

/-- The same in a folder. -/
theorem Sound.of_folder (hflag : c.flags.poll = poll) (hs : c.state.front = false) (hpoll : poll = false)
    (hf : InFolder c.state c.mail q t) : Sound poll q c t where
  flag := hflag
  front htrue := by
    rw [hs] at htrue
    exact absurd htrue (by decide)
  folder _ := ⟨hpoll, hf⟩

/-! ## The states outside a folder -/

theorem Sound.move {s' : State} (h : Sound poll q c t) (hs : c.state = s)
    (hm : s.leads s' = true) : Sound poll q { c with state := s' } t := by
  have hm' := hm
  simp only [State.leads, Bool.and_eq_true] at hm'
  have hf := h.front (by rw [hs]; exact hm'.1.1.1.1)
  rw [hs] at hf
  exact .of_front h.flag hm'.1.1.1.2 (hf.move hm)

theorem good_stateInit (hs : c.state = .init) (h : Sound poll q c (tally e)) :
    Good conf pton poll q (stateInit c e) := by
  have hf := h.front (by rw [hs]; rfl)
  exact .of_front h.flag rfl
    ⟨hf.queue, rfl, rfl, fun _ => rfl, fun ho => absurd ho Bool.false_ne_true⟩

theorem good_stateConnect (hs : c.state = .connect) (h : Sound poll q c (tally e)) :
    Good conf pton poll q (stateConnect c e) := by
  unfold stateConnect
  by_cases hfault : e.fault
  · rw [if_pos hfault]
    exact trivial
  · rw [if_neg hfault]
    exact h.move hs rfl

theorem good_stateConnected (hs : c.state = .connected) (h : Sound poll q c (tally e)) :
    Good conf pton poll q (stateConnected c e) := by
  refine good_getln h fun line b => ?_
  dsimp only
  split_ifs
  · exact h.move hs rfl
  · exact trivial
  · exact good_putTagged (h.move hs rfl)

theorem good_stateCapability1 (hs : c.state = .capability1) (h : Sound poll q c (tally e)) :
    Good conf pton poll q (stateCapability1 c e) := by
  refine good_getln h fun line b => ?_
  dsimp only
  split_ifs
  · exact trivial
  · exact h.move hs rfl

theorem good_stateCapability2 (hs : c.state = .capability2) (h : Sound poll q c (tally e)) :
    Good conf pton poll q (stateCapability2 c e) := by
  refine good_getOkay h fun b => ?_
  dsimp only
  split_ifs
  · exact good_putTagged (h.move hs rfl)
  · split
    · exact trivial
    · exact good_putTagged (h.move hs rfl)
  · exact trivial

theorem good_stateCramMd5Auth (hs : c.state = .cramMd5Auth) (h : Sound poll q c (tally e)) :
    Good conf pton poll q (stateCramMd5Auth pton c e) := by
  refine good_getln h fun line b => ?_
  dsimp only
  split_ifs
  · exact trivial
  · split
    · exact trivial
    · exact good_putln (h.move hs rfl)

theorem good_stateLogin (hs : c.state = .login) (h : Sound poll q c (tally e)) :
    Good conf pton poll q (stateLogin c e) := by
  refine good_getln h fun line b => ?_
  split
  · exact good_putln (h.move hs rfl)
  · exact trivial

theorem good_stateUser (hs : c.state = .user) (h : Sound poll q c (tally e)) :
    Good conf pton poll q (stateUser c e) := by
  refine good_getln h fun line b => ?_
  split
  · exact trivial
  · exact good_putln (h.move hs rfl)

theorem good_statePass (hs : c.state = .pass) (h : Sound poll q c (tally e)) :
    Good conf pton poll q (statePass c e) :=
  good_getOkay h fun _ => h.move hs rfl

theorem good_stateSelect1 (hs : c.state = .select1) (h : Sound poll q c (tally e)) :
    Good conf pton poll q (stateSelect1 c e) := by
  have hf := h.front (by rw [hs]; rfl)
  rw [hs] at hf
  unfold stateSelect1
  split
  · exact trivial
  · -- a new folder: what was selected and stored in the one before is forgotten
    exact good_putTagged (.of_front h.flag rfl
      ⟨hf.queue, hf.dropped, hf.kept, hf.wanted, fun _ => ⟨rfl, rfl⟩⟩)

theorem good_stateSelect2 (hs : c.state = .select2) (h : Sound poll q c (tally e)) :
    Good conf pton poll q (stateSelect2 c e) := by
  refine good_getln h fun line b => ?_
  dsimp only
  split
  · exact trivial
  · exact good_putln (h.move hs rfl)

/-- The answer to SELECT, by induction on what is in the buffer. -/
theorem good_stateSelect3 (hs : c.state = .select3) (h : Sound poll q c (tally e)) :
    Good conf pton poll q (stateSelect3 c e) := by
  have hf := h.front (by rw [hs]; rfl)
  rw [hs] at hf
  unfold stateSelect3
  generalize e.inbuf = b
  induction b with
  | nil => exact h
  | cons r b ih =>
    cases r with
    | broken => exact trivial
    | line s stale =>
      unfold select3Loop
      split
      · split
        · exact .of_front h.flag rfl ⟨hf.queue, hf.dropped, hf.kept, hf.wanted, hf.fresh⟩
        · exact ih
      · exact trivial

theorem good_stateSelect4 (hs : c.state = .select4) (h : Sound poll q c (tally e)) :
    Good conf pton poll q (stateSelect4 c e) := by
  refine good_getOkay h fun b => ?_
  dsimp only
  split_ifs
  · exact good_putTagged (h.move hs rfl)
  · exact h.move hs rfl

theorem good_stateSearch1 (hs : c.state = .search1) (h : Sound poll q c (tally e)) :
    Good conf pton poll q (stateSearch1 c e) :=
  good_putTagged (h.move hs rfl)

/-- The UIDs that are wanted. -/
theorem good_stateSearch2 (hs : c.state = .search2) (h : Sound poll q c (tally e)) :
    Good conf pton poll q (stateSearch2 c e) := by
  have hf := h.front (by rw [hs]; rfl)
  rw [hs] at hf
  refine good_getln h fun line b => ?_
  dsimp only
  split_ifs
  · exact trivial
  · split
    · exact trivial
    · next uids _ =>
      refine .of_front h.flag rfl ⟨hf.queue, hf.dropped, hf.kept, fun hp => ?_, hf.fresh⟩
      have hwanted : e.data.wanted = [] := hf.wanted hp
      show e.data.wanted ++ uids = uids
      rw [hwanted, List.nil_append]

/-- When the search is done, with the guard, the folder starts with its counters right. -/
theorem good_stateSearch3 (hs : c.state = .search3) (h : Sound poll q c (tally e))
    (hg : committedGuard q c.state c.mail e) : Good conf pton poll q (stateSearch3 c e) := by
  have hf := h.front (by rw [hs]; rfl)
  rw [hs] at hf
  obtain ⟨hstoring, hstored⟩ := hf.fresh rfl
  refine good_getOkay h fun b => ?_
  dsimp only
  split_ifs with hclose
  · refine good_putTagged (.of_front h.flag rfl
      ⟨hf.queue, hf.dropped, hf.kept, fun hp => ?_, fun ho => absurd ho Bool.false_ne_true⟩)
    have hpoll : c.flags.poll = false := h.flag.trans hp
    show e.data.wanted = []
    simpa [hpoll] using hclose
  · rw [not_or, Bool.not_eq_true] at hclose
    have hp : poll = false := h.flag.symm.trans hclose.2
    have hwanted : e.data.wanted ≠ [] := fun hnil => hclose.1 (by rw [hnil]; rfl)
    have hselected : e.data.wanted = e.hist.selected := hf.wanted hp
    have hcommitted : e.data.committed = 0 := hg hs hwanted
    refine .of_folder h.flag rfl hp ⟨?_, ?_, ?_, congrArg List.length hstoring, ?_, nofun⟩
    · show (places .next c.mail q (tally e)).Perm e.hist.selected
      rw [places, hf.queue, hf.dropped, hf.kept, hstoring, hstored]
      simpa [tally, inHand, fetched] using List.Perm.of_eq hselected
    · show e.data.wanted.length = e.hist.selected.length
      rw [hselected]
    · show e.data.committed = (tally e).stored.length
      rw [hcommitted, hstored]
      rfl
    · rw [hf.queue]
      exact fun x hx => absurd hx List.not_mem_nil

/-- Behind a folder comes the next one, or the end. -/
theorem good_stateClose (hs : c.state = .close) (h : Sound poll q c (tally e)) :
    Good conf pton poll q (stateClose c e) := by
  refine good_getOkay h fun b => ?_
  dsimp only
  split_ifs
  · exact h.move hs rfl
  · exact good_putTagged (h.move hs rfl)

theorem good_stateQuit (h : Sound poll q c (tally e)) :
    Good conf pton poll q (stateQuit c e) :=
  good_getOkay h fun _ => trivial

/-! ## The states in a folder -/

/-- In a folder, the mails are somewhere: wanted, in hand, queued or committed. -/
theorem Sound.inFolder (h : Sound poll q c t) (hs : c.state = s) (hfalse : s.front = false) :
    poll = false ∧ InFolder s c.mail q t := by
  have hfolder := h.folder (by rw [hs]; exact hfalse)
  rwa [hs] at hfolder

/-- Only while a `STORE` is on its way is there a mail it is for. -/
theorem InFolder.storing_eq_nil (h : InFolder s m q t) (hs : s ≠ .commit) : t.storing = [] :=
  List.eq_nil_of_length_eq_zero (by rw [h.storing, if_neg hs])

/-- From one state in a folder to another with the same mail at hand. -/
theorem InFolder.move {s' : State} {m' : Mail FetchImapMail} (h : InFolder s m q t)
    (hs : s ≠ .commit) (hs' : s' ≠ .commit) (hhand : inHand s' m' = inHand s m)
    (hm' : s' = .line ∨ s' = .mail → m'.auxdata.isSome) :
    InFolder s' m' q t where
  places := by
    have hplaces := h.places
    rw [Imap.places] at hplaces ⊢
    rwa [hhand]
  total := h.total
  committed := h.committed
  storing := by rw [h.storing, if_neg hs, if_neg hs']
  queued := h.queued
  hand := hm'

/-- A `STORE` is sent for a mail on one of the two lists of committed mails. -/
theorem InFolder.store (h : InFolder .next m q t) {uid : ℕ} {dropped kept : List ℕ}
    (hperm : (t.dropped ++ t.kept).Perm (uid :: (dropped ++ kept))) :
    InFolder .commit m q
      { t with dropped := dropped, kept := kept, storing := t.storing ++ [uid] } where
  places := by
    refine List.Perm.trans ?_ h.places
    rw [List.perm_iff_count] at hperm ⊢
    intro u
    have hu := hperm u
    simp only [Imap.places, inHand, List.count_append, List.count_cons, List.count_nil] at hu ⊢
    omega
  total := h.total
  committed := h.committed
  storing := by
    rw [h.storing_eq_nil (by decide)]
    rfl
  queued := h.queued
  hand := nofun

/-- The `STORE` is acknowledged. -/
theorem InFolder.stored (h : InFolder .commit m q t) :
    InFolder .next m q
      { t with
        storing := [], stored := t.stored ++ t.storing, committed := t.committed + 1 } where
  places := by
    refine List.Perm.trans ?_ h.places
    rw [List.perm_iff_count]
    intro u
    simp only [Imap.places, inHand, List.count_append, List.count_nil]
    omega
  total := h.total
  committed := by
    have hone : t.storing.length = 1 := h.storing
    rw [List.length_append, hone, h.committed]
  storing := rfl
  queued := h.queued
  hand := nofun

/-- The first wanted mail starts to arrive. -/
theorem InFolder.take (h : InFolder .body m q t) {uid : ℕ} {wanted : List ℕ}
    (hwanted : t.wanted = uid :: wanted) {m' : Mail FetchImapMail}
    (hm' : m'.auxdata = some ⟨uid⟩) :
    InFolder .line m' q { t with wanted := wanted } where
  places := by
    refine List.Perm.trans ?_ h.places
    rw [List.perm_iff_count]
    intro u
    simp only [Imap.places, inHand, uidOf, hwanted, hm', Option.map_some, Option.toList_some,
      List.count_append, List.count_cons, List.count_nil]
    omega
  total := h.total
  committed := h.committed
  storing := h.storing
  queued := h.queued
  hand _ := by rw [hm']; rfl

/-- The mail is queued. -/
theorem InFolder.enqueue (h : InFolder .mail m q t) {x m' : Mail FetchImapMail}
    (hx : x.auxdata = m.auxdata) : InFolder .next m' (q ++ [x]) t where
  places := by
    have huid : uidOf x = uidOf m := by rw [uidOf, uidOf, hx]
    have hfetched : fetched (q ++ [x]) = fetched q ++ (uidOf m).toList := by
      rw [fetched, List.filterMap_append, List.filterMap_cons, huid, fetched]
      cases uidOf m <;> rfl
    refine List.Perm.trans ?_ h.places
    rw [List.perm_iff_count]
    intro u
    simp only [Imap.places, inHand, hfetched, List.count_append, List.count_nil]
    omega
  total := h.total
  committed := h.committed
  storing := h.storing
  queued y hy := by
    rcases List.mem_append.mp hy with hy | hy
    · exact h.queued y hy
    · rw [List.mem_singleton.mp hy, hx]
      exact h.hand (Or.inr rfl)
  hand := nofun

/-- A queued mail is committed. -/
theorem InFolder.commit (h : InFolder s m q t) {n : ℕ} {x : Mail FetchImapMail}
    {aux : FetchImapMail} (hx : q[n]? = some x) (haux : x.auxdata = some aux)
    {dropped kept : List ℕ} (hperm : (dropped ++ kept).Perm (aux.uid :: (t.dropped ++ t.kept))) :
    InFolder s m (q.eraseIdx n) { t with dropped := dropped, kept := kept } where
  places := by
    have hfetched : (fetched q).Perm (aux.uid :: fetched (q.eraseIdx n)) :=
      filterMap_eraseIdx_perm hx (by rw [uidOf, haux]; rfl)
    refine List.Perm.trans ?_ h.places
    rw [List.perm_iff_count] at hperm hfetched ⊢
    intro u
    have hu := hperm u
    have hu' := hfetched u
    simp only [Imap.places, List.count_append, List.count_cons] at hu hu' ⊢
    omega
  total := h.total
  committed := h.committed
  storing := h.storing
  queued y hy := h.queued y (List.mem_of_mem_eraseIdx hy)
  hand := h.hand

/-- Every queued mail has a UID. -/
theorem InFolder.queue_eq_nil (h : InFolder s m q t) (hfetched : fetched q = []) : q = [] := by
  cases q with
  | nil => rfl
  | cons x q =>
    obtain ⟨aux, haux⟩ := Option.isSome_iff_exists.mp (h.queued x List.mem_cons_self)
    rw [fetched, List.filterMap_cons_some (b := aux.uid) (by rw [uidOf, haux]; rfl)] at hfetched
    exact absurd hfetched (List.cons_ne_nil _ _)

/-- An idle folder with all its mails stored holds no mail any more. -/
theorem InFolder.rest_eq_nil (h : InFolder .next m q t)
    (hlen : t.stored.length = t.selected.length) :
    t.wanted ++ fetched q ++ t.dropped ++ t.kept = [] := by
  have hall := h.places.length_eq
  simp only [Imap.places, inHand, List.length_append, List.length_nil] at hall
  refine List.eq_nil_of_length_eq_zero ?_
  simp only [List.length_append]
  omega

/-- The counters agree exactly when every mail selected in the folder is stored. -/
theorem InFolder.committed_eq_total_iff (h : InFolder .next m q t) :
    t.committed = t.total ↔ t.stored.Perm t.selected := by
  rw [h.committed, h.total]
  constructor
  · intro hlen
    have hrest := h.rest_eq_nil hlen
    simp only [List.append_eq_nil_iff] at hrest
    obtain ⟨⟨⟨hwanted, hfetched⟩, hdropped⟩, hkept⟩ := hrest
    have hplaces := h.places
    rwa [Imap.places, hwanted, hfetched, hdropped, hkept, h.storing_eq_nil (by decide)] at hplaces
  · exact List.Perm.length_eq

/-- Then the folder may be left. -/
theorem InFolder.close (h : InFolder .next m q t) (hdone : t.committed = t.total) :
    Front poll .close q t := by
  rw [h.committed, h.total] at hdone
  have hrest := h.rest_eq_nil hdone
  simp only [List.append_eq_nil_iff] at hrest
  obtain ⟨⟨⟨hwanted, hfetched⟩, hdropped⟩, hkept⟩ := hrest
  exact ⟨h.queue_eq_nil hfetched, hdropped, hkept, fun _ => hwanted,
    fun ho => absurd ho Bool.false_ne_true⟩

/-- The next mail is taken, or one is marked, or the folder is left. -/
theorem good_stateNext (hs : c.state = .next) (h : Sound poll q c (tally e)) :
    Good conf pton poll q (stateNext c e) := by
  obtain ⟨hp, hf⟩ := h.inFolder hs rfl
  unfold stateNext
  split
  · next uid dropped hdropped =>
    refine good_putTagged (.of_folder h.flag rfl hp (hf.store ?_))
    show (e.data.dropped ++ e.data.kept).Perm (uid :: (dropped ++ e.data.kept))
    rw [hdropped, List.cons_append]
  · next hdropped =>
    split
    · next uid kept hkept =>
      refine good_putTagged (.of_folder h.flag rfl hp (hf.store ?_))
      show (e.data.dropped ++ e.data.kept).Perm (uid :: (e.data.dropped ++ kept))
      rw [hdropped, hkept, List.nil_append, List.nil_append]
    · by_cases hpurge : c.flags.purge
      · rw [if_pos hpurge]
        split_ifs
        · exact good_putTagged (.of_folder h.flag rfl hp (hf.move nofun nofun rfl nofun))
        · exact h
      · rw [if_neg hpurge]
        split
        · split_ifs with hclose
          · exact h
          · exact good_putTagged (.of_front h.flag rfl (hf.close (not_not.mp hclose)))
        · exact good_putTagged (.of_folder h.flag rfl hp (hf.move nofun nofun rfl nofun))

/-- The mail that is asked for leaves the list of those wanted. -/
theorem good_stateBody (hs : c.state = .body) (h : Sound poll q c (tally e)) :
    Good conf pton poll q (stateBody conf c e) := by
  obtain ⟨hp, hf⟩ := h.inFolder hs rfl
  refine good_getln h fun line b => ?_
  split
  · split
    · exact trivial
    · next uid wanted _ hwanted =>
      split_ifs
      · exact trivial
      · exact .of_folder h.flag rfl hp (hf.take hwanted rfl)
    · exact trivial
  · exact trivial

/-- The mail's own data is filled in; it stays the same mail. -/
theorem Sound.fill {m' : Mail FetchImapMail} (h : Sound poll q c t) (hs : c.state = .line)
    (hm' : m'.auxdata = c.mail.auxdata) : Sound poll q { c with mail := m' } t := by
  obtain ⟨hp, hf⟩ := h.inFolder hs rfl
  refine .of_folder h.flag (by rw [hs]; rfl) hp ?_
  show InFolder c.state m' q t
  rw [hs]
  refine hf.move nofun nofun (by rw [inHand, inHand, uidOf, uidOf, hm']) fun hline => ?_
  rw [hm']
  exact hf.hand hline

/-- The mail is complete but for the end of the reply. -/
theorem Sound.filled {m' : Mail FetchImapMail} (h : Sound poll q c t) (hs : c.state = .line)
    (hm' : m'.auxdata = c.mail.auxdata) :
    Sound poll q { c with state := .mail, mail := m' } t := by
  obtain ⟨hp, hf⟩ := h.inFolder hs rfl
  exact .of_folder h.flag rfl hp
    (hf.move nofun nofun (by simp only [inHand, uidOf, hm'])
      fun _ => by rw [hm']; exact hf.hand (Or.inl rfl))

/-- A mail is handed out. -/
theorem good_lastLine {line : List Char} (hs : c.state = .line) (h : Sound poll q c (tally e))
    (hm : m.auxdata = c.mail.auxdata) : Good conf pton poll q (lastLine c line m e) := by
  unfold lastLine
  dsimp only
  split
  · exact trivial
  · split_ifs
    · exact trivial
    · exact h.filled hs hm
    · exact trivial
    · exact h.filled hs hm

/-- The lines of a mail, by induction on what is in the buffer. -/
theorem good_lineLoop (hs : c.state = .line) (b : List Received) :
    ∀ (m : Mail FetchImapMail) (e : Env), Sound poll q c (tally e) →
      m.auxdata = c.mail.auxdata → Good conf pton poll q (lineLoop c b m e) := by
  induction b with
  | nil =>
    intro m e h hm
    exact h.fill hs hm
  | cons r b ih =>
    intro m e h hm
    cases r with
    | broken => exact trivial
    | line s stale =>
      unfold lineLoop
      split_ifs
      · exact ih m e h hm
      · exact good_lastLine hs h hm
      · exact trivial
      · exact ih _ _ h (by rw [Mail.appendLine_auxdata, hm])

/-- `imap_commit`. -/
theorem Sound.commit (h : Sound poll q c (tally e)) {n : ℕ} {x : Mail FetchImapMail}
    (dec : Decision) (hx : q[n]? = some x) :
    Committed (fetcher conf pton) (fun e => Sound poll (q.eraseIdx n) c (tally e))
      (fun _ => True) (imapCommit { x with decision := dec } e) := by
  unfold imapCommit
  dsimp only
  split
  · exact trivial
  · next aux haux =>
    -- outside a folder no mail is queued
    have hfolder : c.state.front = false := by
      by_contra hfront
      rw [Bool.not_eq_false] at hfront
      rw [(h.front hfront).queue] at hx
      exact absurd hx (by simp)
    obtain ⟨hp, hf⟩ := h.folder hfolder
    cases dec with
    | drop =>
      refine .of_folder h.flag hfolder hp (hf.commit hx haux ?_)
      show (e.data.dropped ++ [aux.uid] ++ e.data.kept).Perm
        (aux.uid :: (e.data.dropped ++ e.data.kept))
      rw [List.append_assoc]
      exact List.perm_middle
    | keep =>
      refine .of_folder h.flag hfolder hp (hf.commit hx haux ?_)
      show (e.data.dropped ++ (e.data.kept ++ [aux.uid])).Perm
        (aux.uid :: (e.data.dropped ++ e.data.kept))
      rw [← List.append_assoc]
      exact List.perm_append_singleton _ _

theorem good_stateMail (hs : c.state = .mail) (h : Sound poll q c (tally e)) :
    Good conf pton poll q (stateMail c e) := by
  obtain ⟨hp, hf⟩ := h.inFolder hs rfl
  refine good_getOkay h fun b => Outcome.mail trivial ?_ ?_
  · intro x hx
    exact .of_folder h.flag rfl hp (hf.enqueue hx)
  · intro q' n x h' hx
    exact h'.commit .drop hx

/-- A mail that was marked is committed. -/
theorem good_stateCommit (hs : c.state = .commit) (h : Sound poll q c (tally e)) :
    Good conf pton poll q (stateCommit c e) := by
  obtain ⟨hp, hf⟩ := h.inFolder hs rfl
  exact good_getOkay h fun b => .of_folder h.flag rfl hp hf.stored

theorem good_stateExpunge (hs : c.state = .expunge) (h : Sound poll q c (tally e)) :
    Good conf pton poll q (stateExpunge c e) := by
  obtain ⟨hp, hf⟩ := h.inFolder hs rfl
  exact good_getOkay h fun b =>
    .of_folder h.flag rfl hp (hf.move nofun nofun rfl nofun)

/-! ## Every state of a run -/

/-- A call of a state function keeps the invariant. -/
theorem good_state (h : Sound poll q c (tally e)) (hg : committedGuard q c.state c.mail e) :
    Good conf pton poll q (state conf pton c e) := by
  unfold state
  cases hs : c.state with
  | init => exact good_stateInit hs h
  | connect => exact good_stateConnect hs h
  | connected => exact good_stateConnected hs h
  | capability1 => exact good_stateCapability1 hs h
  | capability2 => exact good_stateCapability2 hs h
  | cramMd5Auth => exact good_stateCramMd5Auth hs h
  | login => exact good_stateLogin hs h
  | user => exact good_stateUser hs h
  | pass => exact good_statePass hs h
  | select1 => exact good_stateSelect1 hs h
  | select2 => exact good_stateSelect2 hs h
  | select3 => exact good_stateSelect3 hs h
  | select4 => exact good_stateSelect4 hs h
  | search1 => exact good_stateSearch1 hs h
  | search2 => exact good_stateSearch2 hs h
  | search3 => exact good_stateSearch3 hs h hg
  | next => exact good_stateNext hs h
  | body => exact good_stateBody hs h
  | line => exact good_lineLoop hs e.inbuf c.mail e h rfl
  | mail => exact good_stateMail hs h
  | commit => exact good_stateCommit hs h
  | expunge => exact good_stateExpunge hs h
  | close => exact good_stateClose hs h
  | quit => exact good_stateQuit h

/-- The invariant of an IMAP fetch whose searches meet the guard. -/
def sound (conf : Conf) (pton : List Char → Option (List Char)) (poll : Bool) :
    LoopInv (fetcher conf pton) conf committedGuard noCommitGuard where
  run q c e := Sound poll q c (tally e)
  done _ _ := True
  dead _ := True
  run_dead _ := trivial
  done_dead _ := trivial
  dead_abort _ := trivial
  dead_auxfree _ := trivial
  run_flags f hf h := ⟨hf.trans h.flag, h.front, h.folder⟩
  run_input i h := by cases i <;> exact h
  done_input _ _ := trivial
  state h hg _ := good_state h hg
  commit dec h hx _ := h.commit dec hx
  commit_done dec _ _ _ := Committed.intro trivial trivial

/-- The account holds in every run whose commits meet the condition. -/
theorem holds_sound {only : FetchOnly} {user pass : Option (List Char)}
    {nocrammd5 nologin : Bool} {folders : List (List Char)} {l : Loop Env State FetchImapMail}
    (h : Lib.Runs.Reach (step (fetcher conf pton) conf)
      (stepGuard conf committedGuard noCommitGuard)
      (begin conf pton poll only user pass nocrammd5 nologin folders) l) :
    (sound conf pton poll).Holds l := by
  refine LoopInv.holds_reach ?_ h
  exact .of_front rfl rfl
    ⟨rfl, rfl, rfl, fun _ => rfl, fun ho => absurd ho Bool.false_ne_true⟩

end

end Fdm.Imap
