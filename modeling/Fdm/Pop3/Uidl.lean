import Fdm.Pop3.Cache

/-!
# Which replies to UIDL are accepted

`pop3_state_cache2` reads as many lines as there are mails, and `pop3_state_cache3` the line that
ends the reply. The lines that they let through (`Passes`) are not only those of RFC 1939
(`WellFormed`): a number may have blanks or a sign in front, and anything but a blank behind it; the
last line need not be a dot.

* `listen_eq`: it makes no difference in which pieces a reply arrives;
* `validates_iff`: when a reply is accepted that should be, and refused that should not.
-/

namespace Fdm.Pop3

open Fdm.Fetch Lib.Scanf Lib.KeyedTree

/-- A line of the server, and what the line buffer still holds behind its terminator. -/
abbrev Line := List Char × List Char

/-- Lines that have arrived. -/
def received (ls : List Line) : List Received := ls.map fun l => .line l.1 l.2

/-! ## The two states -/

/-- The cache states on what has arrived. The loop calls again after `FETCH_AGAIN`. -/
def cacheStates (c : Ctx) (e : Env) : Result :=
  if c.state = .cache2 then
    match stateCache2 c e with
    | (.again, c, e) => stateCache3 c e
    | r => r
  else stateCache3 c e

/-- One of the two states is to be called again when more has arrived. -/
def Waiting (r : Result) : Prop :=
  r.1 = .block ∧ (r.2.1.state = .cache2 ∨ r.2.1.state = .cache3)

instance (r : Result) : Decidable (Waiting r) :=
  inferInstanceAs (Decidable (r.1 = .block ∧ (r.2.1.state = .cache2 ∨ r.2.1.state = .cache3)))

/-- The same while a reply arrives piece by piece. -/
def listen (c : Ctx) (e : Env) : List (List Received) → Result
  | [] => (.block, c, e)
  | piece :: pieces =>
    let r := cacheStates c { e with inbuf := e.inbuf ++ piece }
    if Waiting r then listen r.2.1 r.2.2 pieces else r

/-- The states go on with what has been listed. -/
def Accepted (r : Result) : Prop := r.2.1.state = .next ∨ r.2.1.state = .quit

instance (r : Result) : Decidable (Accepted r) :=
  inferInstanceAs (Decidable (r.2.1.state = .next ∨ r.2.1.state = .quit))

/-- `pop3_state_cache2` uses the result of `strchr` where there is no blank, or
`pop3_state_cache3` looks behind the terminator of an empty line. -/
def readsOutside (c : Ctx) (e : Env) : Bool :=
  match stateCache2 c e with
  | (.crash, _, _) => true
  | (.again, _, e) =>
    match e.inbuf with
    | .line [] _ :: _ => true
    | _ => false
  | _ => false

/-! ## Replies -/

/-- The lines that list some UIDs from a number on. -/
def listing : ℕ → List (List Char) → List (List Char)
  | _, [] => []
  | n, uid :: uids => (decimal (n + 1) ++ ' ' :: uid) :: listing (n + 1) uids

/-- A reply as it should be: the listing of distinct UIDs and a dot. What follows is not part of
it. -/
def WellFormed (num : ℕ) (ls : List Line) : Prop :=
  ∃ uids rest, uids.length = num ∧ uids.Nodup ∧ (∀ uid ∈ uids, validUid uid = true) ∧
    ls.map Prod.fst = listing 0 uids ++ ['.'] :: rest

/-- The number that `%u` reads from a line. -/
def numberOf (s : List Char) : Option ℕ := (scanNum 32 s).map Prod.fst

/-- A line from which the number `n` is read, with a UID behind its first blank. -/
structure Lists (n : ℕ) (s uid : List Char) : Prop where
  number : numberOf s = some n
  blank : ∃ c, s.dropWhile (· ≠ ' ') = c :: uid
  valid : validUid uid = true

/-- Lines that are taken for the listing of some UIDs from a number on. -/
inductive Listing : ℕ → List Line → List (List Char) → Prop
  | nil {n : ℕ} : Listing n [] []
  | cons {n : ℕ} {l : Line} {ls : List Line} {uid : List Char} {uids : List (List Char)} :
      Lists (n + 1) l.1 uid → Listing (n + 1) ls uids → Listing n (l :: ls) (uid :: uids)

/-- Some UIDs are listed as the first of a reply, and it goes on with a line. -/
structure Behind (ls : List Line) (pre : List Line) (l : Line) : Prop where
  split : ∃ rest, ls = pre ++ l :: rest
  listing : ∃ uids, Listing 0 pre uids ∧ uids.Nodup

/-- A reply that gets through: all mails are listed, and the line behind begins with a dot or has
one character. -/
def Passes (num : ℕ) (ls : List Line) : Prop :=
  ∃ pre l, Behind ls pre l ∧ pre.length = num ∧ l.1 ≠ [] ∧ endsListing l.1 [] = true

/-- Behind the mails listed first, the next one's line has its number and no blank. -/
def Unblanked (num : ℕ) (ls : List Line) : Prop :=
  ∃ pre l, Behind ls pre l ∧ pre.length < num ∧ numberOf l.1 = some (pre.length + 1) ∧
    l.1.dropWhile (· ≠ ' ') = []

/-- Behind the listing there is an empty line. -/
def EmptyEnd (num : ℕ) (ls : List Line) : Prop :=
  ∃ pre l, Behind ls pre l ∧ pre.length = num ∧ l.1 = []

/-! ## The loop of `pop3_state_cache2` -/

section

variable {c : Ctx} {e : Env} {ls pre post : List Line} {uid : List Char} {uids : List (List Char)}
  {num n : ℕ}

/-- Only the number is assigned. -/
theorem sscanf_number (s : List Char) : sscanf [u32, .space, .word] s = (numberOf s).toList := by
  show (scan [.num 32 true, .space, .word] s).1 = ((scanNum 32 s).map Prod.fst).toList
  simp only [scan]
  cases scanNum 32 s with
  | none => rfl
  | some p =>
    dsimp only
    split_ifs <;> rfl

/-- A UID is put into the server queue. -/
def addUid (e : Env) (uid : List Char) : Env :=
  { e with
    data := { e.data with
      serverq := e.data.serverq.insert ⟨uid, e.data.cur + 1⟩, cur := e.data.cur + 1 }
    hist := { e.hist with listing := e.hist.listing ++ [⟨uid, e.data.cur + 1⟩] } }

/-- All mails are listed. -/
theorem cache2Loop_full (hfull : e.data.cur = e.data.num) (b : List Received) :
    cache2Loop c b e = (.again, { c with state := .cache3 }, { e with inbuf := b }) := by
  unfold cache2Loop
  rw [if_pos hfull]

theorem cache2Loop_nil (hmore : e.data.cur ≠ e.data.num) :
    cache2Loop c [] e = (.block, c, { e with inbuf := [] }) := by
  unfold cache2Loop
  rw [if_neg hmore]

theorem cache2Loop_broken (hmore : e.data.cur ≠ e.data.num) (rest : List Received) :
    cache2Loop c (.broken :: rest) e = (.error, c, e) := by
  unfold cache2Loop
  rw [if_neg hmore]

/-- What the loop does with a line when more are to come. -/
theorem cache2Loop_line (hmore : e.data.cur ≠ e.data.num) (l : Line) (rest : List Received) :
    cache2Loop c (.line l.1 l.2 :: rest) e =
      if numberOf l.1 = some (e.data.cur + 1) then
        match l.1.dropWhile (· ≠ ' ') with
        | [] => (.crash, c, e)
        | _ :: uid =>
          if validUid uid = true ∧ uid ∉ e.data.serverq.keys then cache2Loop c rest (addUid e uid)
          else (.error, c, e)
      else (.error, c, e) := by
  rw [cache2Loop, if_neg hmore]
  dsimp only
  rw [sscanf_number]
  cases hnumber : numberOf l.1 with
  | none => rfl
  | some n =>
    rw [Option.toList_some]
    dsimp only
    by_cases hn : n = e.data.cur + 1
    · rw [if_neg (not_not.mpr hn), if_pos (congrArg some hn), hn]
      cases l.1.dropWhile (· ≠ ' ') with
      | nil => rfl
      | cons b uid =>
        dsimp only
        have hfind : (e.data.serverq.find uid).isSome = true ↔ uid ∈ e.data.serverq.keys :=
          Tree.find_isSome
        by_cases hgood : validUid uid = true ∧ uid ∉ e.data.serverq.keys
        · rw [if_pos hgood, if_neg]
          · rfl
          · simp [hgood.1, hfind, hgood.2]
        · rw [if_neg hgood, if_pos]
          simp only [Bool.or_eq_true, Bool.not_eq_true', hfind]
          by_cases hvalid : validUid uid = true
          · right
            by_contra hnot
            exact hgood ⟨hvalid, hnot⟩
          · left
            exact Bool.eq_false_iff.mpr hvalid
    · rw [if_pos hn, if_neg fun heq => hn (Option.some_inj.mp heq)]

/-- All the UIDs of a listing. -/
def addUids (e : Env) (uids : List (List Char)) : Env := uids.foldl addUid e

theorem cur_addUids (e : Env) (uids : List (List Char)) :
    (addUids e uids).data.cur = e.data.cur + uids.length := by
  induction uids generalizing e with
  | nil => rfl
  | cons uid uids ih =>
    show (addUids (addUid e uid) uids).data.cur = _
    rw [ih, List.length_cons]
    show e.data.cur + 1 + uids.length = _
    omega

/-- What listing leaves alone. -/
theorem num_addUids (e : Env) (uids : List (List Char)) :
    (addUids e uids).data.num = e.data.num := by
  induction uids generalizing e with
  | nil => rfl
  | cons uid uids ih => exact ih (addUid e uid)

theorem fault_addUids (e : Env) (uids : List (List Char)) : (addUids e uids).fault = e.fault := by
  induction uids generalizing e with
  | nil => rfl
  | cons uid uids ih => exact ih (addUid e uid)

theorem load_addUids (e : Env) (uids : List (List Char)) : load (addUids e uids) = load e := by
  induction uids generalizing e with
  | nil => rfl
  | cons uid uids ih => exact ih (addUid e uid)

theorem Listing.length (h : Listing n ls uids) : ls.length = uids.length := by
  induction h with
  | nil => rfl
  | cons _ _ ih => rw [List.length_cons, List.length_cons, ih]

theorem received_append (ls ls' : List Line) : received (ls ++ ls') = received ls ++ received ls' :=
  List.map_append

/-- The lines list UIDs that come next, and that are not in the server queue yet. -/
structure Begins (e : Env) (pre : List Line) (uids : List (List Char)) : Prop where
  listing : Listing e.data.cur pre uids
  nodup : uids.Nodup
  fresh : ∀ u ∈ uids, u ∉ e.data.serverq.keys

theorem Begins.cons {l : Line} (hlists : Lists (e.data.cur + 1) l.1 uid)
    (hfresh : uid ∉ e.data.serverq.keys) (h : Begins (addUid e uid) pre uids) :
    Begins e (l :: pre) (uid :: uids) where
  listing := .cons hlists h.listing
  nodup := by
    apply List.nodup_cons.mpr
    refine ⟨fun hmem => ?_, h.nodup⟩
    have hnot := h.fresh uid hmem
    rw [addUid, Tree.mem_keys_insert, not_or] at hnot
    exact hnot.1 rfl
  fresh u hu := by
    rcases List.mem_cons.mp hu with rfl | hu
    · exact hfresh
    · have hnot := h.fresh u hu
      rw [addUid, Tree.mem_keys_insert, not_or] at hnot
      exact hnot.2

theorem Begins.uncons {l : Line} (h : Begins e (l :: pre) (uid :: uids)) :
    Lists (e.data.cur + 1) l.1 uid ∧ uid ∉ e.data.serverq.keys ∧ Begins (addUid e uid) pre uids := by
  have hnodup := List.nodup_cons.mp h.nodup
  have hlisting := h.listing
  cases hlisting with
  | cons hlists hrest =>
    refine ⟨hlists, h.fresh uid List.mem_cons_self, hrest, hnodup.2, fun u hu => ?_⟩
    rw [addUid, Tree.mem_keys_insert]
    rintro (rfl | hkeys)
    · exact hnodup.1 hu
    · exact h.fresh u (List.mem_cons_of_mem _ hu) hkeys

/-- The loop goes through the lines of a listing. -/
theorem cache2Loop_begins {tail : List Received} (h : Begins e pre uids)
    (hnum : e.data.cur + pre.length ≤ e.data.num) :
    cache2Loop c (received pre ++ tail) e = cache2Loop c tail (addUids e uids) := by
  induction pre generalizing e uids with
  | nil =>
    have hlisting := h.listing
    cases hlisting
    rfl
  | cons l pre ih =>
    cases uids with
    | nil => exact absurd h.listing nofun
    | cons uid uids =>
      obtain ⟨hlists, hfresh, hrest⟩ := h.uncons
      obtain ⟨b, hblank⟩ := hlists.blank
      rw [List.length_cons] at hnum
      show cache2Loop c (.line l.1 l.2 :: (received pre ++ tail)) e = _
      rw [cache2Loop_line (by omega), if_pos hlists.number, hblank]
      dsimp only
      rw [if_pos ⟨hlists.valid, hfresh⟩]
      apply ih hrest
      show e.data.cur + 1 + pre.length ≤ e.data.num
      omega

/-- The line lists the next UID. -/
def Continues (e : Env) (l : Line) : Prop :=
  ∃ uid, Lists (e.data.cur + 1) l.1 uid ∧ uid ∉ e.data.serverq.keys

/-- Of any lines, those at the front that are a listing. -/
theorem exists_begins (ls : List Line) (hle : e.data.cur ≤ e.data.num) :
    ∃ pre uids post, ls = pre ++ post ∧ Begins e pre uids ∧
      e.data.cur + pre.length ≤ e.data.num ∧
      (e.data.cur + pre.length < e.data.num → ∀ l ∈ post.head?, ¬ Continues (addUids e uids) l) := by
  induction ls generalizing e with
  | nil =>
    have hbegins : Begins e [] [] := ⟨.nil, List.nodup_nil, fun _ hu => absurd hu List.not_mem_nil⟩
    exact ⟨[], [], [], rfl, hbegins, by simpa using hle, fun _ => nofun⟩
  | cons l ls ih =>
    by_cases hnext : e.data.cur < e.data.num ∧ Continues e l
    · obtain ⟨hlt, uid, hlists, hfresh⟩ := hnext
      have hcur : (addUid e uid).data.cur = e.data.cur + 1 := rfl
      have hnum : (addUid e uid).data.num = e.data.num := rfl
      obtain ⟨pre, uids, post, hsplit, hbegins, hlength, hstop⟩ := ih (e := addUid e uid) (by omega)
      rw [hcur, hnum] at hlength hstop
      refine ⟨l :: pre, uid :: uids, post, by rw [hsplit]; rfl, .cons hlists hfresh hbegins, ?_, ?_⟩
      · rw [List.length_cons]
        omega
      · rw [List.length_cons]
        intro hmore
        exact hstop (by omega)
    · have hbegins : Begins e [] [] :=
        ⟨.nil, List.nodup_nil, fun _ hu => absurd hu List.not_mem_nil⟩
      refine ⟨[], [], l :: ls, rfl, hbegins, by simpa using hle, fun hmore l' hl' => ?_⟩
      obtain rfl : l = l' := Option.some_inj.mp hl'
      exact fun hcontinues => hnext ⟨by simpa using hmore, hcontinues⟩

/-- A line that does not list the next UID is refused, unless it has its number and no blank. -/
theorem cache2Loop_stop {l : Line} (hmore : e.data.cur < e.data.num)
    (hstop : ¬ Continues e l) (rest : List Received) :
    cache2Loop c (.line l.1 l.2 :: rest) e = (.error, c, e) ∨
      numberOf l.1 = some (e.data.cur + 1) ∧ l.1.dropWhile (· ≠ ' ') = [] := by
  rw [cache2Loop_line (by omega)]
  by_cases hnumber : numberOf l.1 = some (e.data.cur + 1)
  · rw [if_pos hnumber]
    cases hblank : l.1.dropWhile (· ≠ ' ') with
    | nil => exact .inr ⟨hnumber, rfl⟩
    | cons b uid =>
      left
      dsimp only
      rw [if_neg fun hgood => hstop ⟨uid, ⟨hnumber, ⟨b, hblank⟩, hgood.1⟩, hgood.2⟩]
  · rw [if_neg hnumber]
    exact .inl rfl

/-! ## Replies in pieces -/

/-- Two results with the same code in the same state. -/
def Same (r r' : Result) : Prop := r.1 = r'.1 ∧ r.2.1 = r'.2.1

theorem Same.trans {r r' r'' : Result} (h : Same r r') (h' : Same r' r'') : Same r r'' :=
  ⟨h.1.trans h'.1, h.2.trans h'.2⟩

/-- The same result, but for what is left behind an error. -/
def Agrees (r r' : Result) : Prop := r = r' ∨ Same r r' ∧ (r'.1 = .error ∨ r'.1 = .crash)

theorem Agrees.trans {r r' r'' : Result} (h : Agrees r r') (h' : Agrees r' r'') : Agrees r r'' := by
  rcases h' with rfl | ⟨hsame', hbad'⟩
  · exact h
  · rcases h with rfl | ⟨hsame, -⟩
    · exact .inr ⟨hsame', hbad'⟩
    · exact .inr ⟨hsame.trans hsame', hbad'⟩

/-- What is in the buffer besides does not matter. -/
theorem agrees_inbuf (b x : List Received) (e : Env) :
    Agrees (cache2Loop c b { e with inbuf := x }) (cache2Loop c b e) := by
  induction b generalizing e with
  | nil =>
    left
    unfold cache2Loop
    split_ifs
    · rfl
    · rfl
  | cons r b ih =>
    by_cases hfull : e.data.cur = e.data.num
    · left
      rw [cache2Loop_full hfull, cache2Loop_full (e := { e with inbuf := x }) hfull]
    · cases r with
      | broken =>
        rw [cache2Loop_broken hfull, cache2Loop_broken (e := { e with inbuf := x }) hfull]
        exact .inr ⟨⟨rfl, rfl⟩, .inl rfl⟩
      | line s stale =>
        rw [cache2Loop_line hfull (s, stale),
          cache2Loop_line (e := { e with inbuf := x }) hfull (s, stale)]
        dsimp only
        split_ifs
        · cases s.dropWhile (· ≠ ' ') with
          | nil => exact .inr ⟨⟨rfl, rfl⟩, .inr rfl⟩
          | cons _ uid =>
            dsimp only
            split_ifs
            · exact ih (addUid e uid)
            · exact .inr ⟨⟨rfl, rfl⟩, .inl rfl⟩
        · exact .inr ⟨⟨rfl, rfl⟩, .inl rfl⟩

/-- What the loop of `pop3_state_cache2` does when more follows. -/
def Follows (c : Ctx) (e : Env) (a b : List Received) : Result → Prop
  | (.again, c', e') => c'.state = .cache3 ∧
    cache2Loop c (a ++ b) e = (.again, c', { e' with inbuf := e'.inbuf ++ b })
  | (.block, c', e') =>
    c' = c ∧ e'.inbuf = [] ∧ Agrees (cache2Loop c (a ++ b) e) (cache2Loop c b e')
  | r => Same (cache2Loop c (a ++ b) e) r

theorem cache2Loop_follows (a b : List Received) (e : Env) :
    Follows c e a b (cache2Loop c a e) := by
  induction a generalizing e with
  | nil =>
    by_cases hfull : e.data.cur = e.data.num
    · rw [cache2Loop_full hfull]
      exact ⟨rfl, cache2Loop_full hfull b⟩
    · rw [cache2Loop_nil hfull]
      have hinbuf := agrees_inbuf (c := c) b e.inbuf { e with inbuf := [] }
      exact ⟨rfl, rfl, hinbuf⟩
  | cons r a ih =>
    by_cases hfull : e.data.cur = e.data.num
    · rw [cache2Loop_full hfull]
      exact ⟨rfl, cache2Loop_full hfull (r :: a ++ b)⟩
    · cases r with
      | broken =>
        rw [cache2Loop_broken hfull]
        show Same (cache2Loop c (.broken :: (a ++ b)) e) _
        rw [cache2Loop_broken hfull]
        exact ⟨rfl, rfl⟩
      | line s stale =>
        have hline := fun x => cache2Loop_line (c := c) hfull (s, stale) x
        dsimp only at hline
        by_cases hnumber : numberOf s = some (e.data.cur + 1)
        · simp only [if_pos hnumber] at hline
          cases hblank : s.dropWhile (· ≠ ' ') with
          | nil =>
            simp only [hblank] at hline
            rw [hline]
            show Same (cache2Loop c (.line s stale :: (a ++ b)) e) _
            rw [hline]
            exact ⟨rfl, rfl⟩
          | cons _ uid =>
            simp only [hblank] at hline
            by_cases hgood : validUid uid = true ∧ uid ∉ e.data.serverq.keys
            · simp only [if_pos hgood] at hline
              have hrest := ih (addUid e uid)
              rw [hline]
              unfold Follows at hrest ⊢
              rw [List.cons_append, hline]
              exact hrest
            · simp only [if_neg hgood] at hline
              rw [hline]
              show Same (cache2Loop c (.line s stale :: (a ++ b)) e) _
              rw [hline]
              exact ⟨rfl, rfl⟩
        · simp only [if_neg hnumber] at hline
          rw [hline]
          show Same (cache2Loop c (.line s stale :: (a ++ b)) e) _
          rw [hline]
          exact ⟨rfl, rfl⟩

/-- The call of `pop3_state_cache3` behind that of `pop3_state_cache2`. -/
def andCache3 : Result → Result
  | (.again, c, e) => stateCache3 c e
  | r => r

theorem andCache3_of_ne {r : Result} (h : r.1 ≠ .again) : andCache3 r = r := by
  obtain ⟨code, c', e'⟩ := r
  cases code with
  | again => exact absurd rfl h
  | _ => rfl

theorem Same.andCache3 {r r' : Result} (h : Same r r') (hr : r'.1 ≠ .again) :
    Same (andCache3 r) (andCache3 r') := by
  rw [andCache3_of_ne hr, andCache3_of_ne (by rw [h.1]; exact hr)]
  exact h

theorem Agrees.andCache3 {r r' : Result} (h : Agrees r r') : Same (andCache3 r) (andCache3 r') := by
  rcases h with rfl | ⟨hsame, hbad⟩
  · exact ⟨rfl, rfl⟩
  · apply hsame.andCache3
    intro hagain
    rw [hagain] at hbad
    exact hbad.elim nofun nofun

/-- What `pop3_state_cache3` does behind its check of the line. -/
def resolve (c : Ctx) (e : Env) : Result :=
  if e.data.total = 0 then cache3Select c e else cache3Reindex c e

/-- What follows the line that ends the reply does not matter. -/
theorem same_resolve (c : Ctx) (e : Env) (x y : List Received) :
    Same (resolve c { e with inbuf := x }) (resolve c { e with inbuf := y }) := by
  unfold resolve
  by_cases htotal : e.data.total = 0
  · rw [if_pos htotal, if_pos htotal]
    unfold cache3Select
    rw [show load { e with inbuf := x } = load e from rfl,
      show load { e with inbuf := y } = load e from rfl]
    cases load e with
    | none => exact ⟨rfl, rfl⟩
    | some cacheq =>
      dsimp only
      unfold putln
      split_ifs <;> first | exact ⟨rfl, rfl⟩ | contradiction
  · rw [if_neg htotal, if_neg htotal]
    exact ⟨rfl, rfl⟩

/-- It is not to be called again. -/
theorem resolve_not_waiting (c : Ctx) (e : Env) : ¬ Waiting (resolve c e) := by
  unfold resolve cache3Select cache3Reindex
  split_ifs
  · cases load e with
    | none => exact fun h => absurd h.1 nofun
    | some cacheq =>
      dsimp only
      unfold putln
      split_ifs
      · exact fun h => absurd h.1 nofun
      · exact fun h => h.2.elim nofun nofun
      · exact fun h => absurd h.1 nofun
  · exact fun h => absurd h.1 nofun

theorem stateCache3_nil (c : Ctx) (e : Env) :
    stateCache3 c { e with inbuf := [] } = (.block, c, { e with inbuf := [] }) := rfl

theorem stateCache3_line (c : Ctx) (e : Env) (l : Line) (rest : List Received) :
    stateCache3 c { e with inbuf := .line l.1 l.2 :: rest } =
      if endsListing l.1 l.2 = true then resolve c { e with inbuf := rest }
      else (.error, c, { e with inbuf := rest }) := by
  show (if (!endsListing l.1 l.2) = true then _ else _) = _
  cases endsListing l.1 l.2 <;> rfl

theorem stateCache3_append {a : List Received} (ha : a ≠ []) (b : List Received) (c : Ctx) (e : Env) :
    ¬ Waiting (stateCache3 c { e with inbuf := a }) ∧
      Same (stateCache3 c { e with inbuf := a ++ b }) (stateCache3 c { e with inbuf := a }) := by
  cases a with
  | nil => exact absurd rfl ha
  | cons r a =>
    cases r with
    | broken => exact ⟨fun h => absurd h.1 nofun, rfl, rfl⟩
    | line s stale =>
      rw [List.cons_append, stateCache3_line c e (s, stale), stateCache3_line c e (s, stale)]
      split_ifs
      · exact ⟨resolve_not_waiting c _, same_resolve c e _ _⟩
      · exact ⟨fun h => absurd h.1 nofun, rfl, rfl⟩

/-- What has arrived first may be dealt with first. -/
theorem cacheStates_append (hstate : c.state = .cache2 ∨ c.state = .cache3) (a b : List Received)
    (e : Env) :
    (Waiting (cacheStates c { e with inbuf := a }) →
      (cacheStates c { e with inbuf := a }).2.2.inbuf = [] ∧
        Same (cacheStates c { e with inbuf := a ++ b })
          (cacheStates (cacheStates c { e with inbuf := a }).2.1
            { (cacheStates c { e with inbuf := a }).2.2 with inbuf := b })) ∧
      (¬ Waiting (cacheStates c { e with inbuf := a }) →
        Same (cacheStates c { e with inbuf := a ++ b }) (cacheStates c { e with inbuf := a })) := by
  have hcache3 : ∀ (c' : Ctx) (e' : Env) (x : List Received), c'.state = .cache3 →
      (Waiting (stateCache3 c' { e' with inbuf := x }) →
        (stateCache3 c' { e' with inbuf := x }).2.2.inbuf = [] ∧
          Same (stateCache3 c' { e' with inbuf := x ++ b })
            (cacheStates (stateCache3 c' { e' with inbuf := x }).2.1
              { (stateCache3 c' { e' with inbuf := x }).2.2 with inbuf := b })) ∧
        (¬ Waiting (stateCache3 c' { e' with inbuf := x }) →
          Same (stateCache3 c' { e' with inbuf := x ++ b }) (stateCache3 c' { e' with inbuf := x })) := by
    intro c' e' x hc'
    by_cases hx : x = []
    · rw [hx, stateCache3_nil]
      refine ⟨fun _ => ⟨rfl, ?_⟩, fun hnot => absurd ⟨rfl, .inr hc'⟩ hnot⟩
      rw [cacheStates, if_neg (by rw [hc']; decide)]
      exact ⟨rfl, rfl⟩
    · obtain ⟨hnot, hsame⟩ := stateCache3_append hx b c' e'
      exact ⟨fun hwaiting => absurd hwaiting hnot, fun _ => hsame⟩
  by_cases hc : c.state = .cache2
  · have hcall : ∀ (e : Env) (x : List Received), cacheStates c { e with inbuf := x } =
        andCache3 (cache2Loop c x { e with inbuf := x }) := by
      intro e x
      rw [cacheStates, if_pos hc]
      rfl
    have hfollows := cache2Loop_follows (c := c) a b { e with inbuf := a }
    have hinbuf := agrees_inbuf (c := c) (a ++ b) (a ++ b) { e with inbuf := a }
    rw [hcall e a, hcall e (a ++ b)]
    rcases hr : cache2Loop c a { e with inbuf := a } with ⟨code, c', e'⟩
    rw [hr] at hfollows
    have hother : code ≠ .again → Same (cache2Loop c (a ++ b) { e with inbuf := a }) (code, c', e') →
        Same (andCache3 (cache2Loop c (a ++ b) { e with inbuf := a ++ b }))
          (andCache3 (code, c', e')) := by
      intro hcode hsame
      exact hinbuf.andCache3.trans (hsame.andCache3 hcode)
    cases code with
    | again =>
      obtain ⟨hc', hall⟩ := hfollows
      rw [hall] at hinbuf
      have heq := hinbuf.resolve_right fun hbad => hbad.2.elim nofun nofun
      rw [show cache2Loop c (a ++ b) { e with inbuf := a ++ b } = _ from heq]
      exact hcache3 c' e' e'.inbuf hc'
    | block =>
      obtain ⟨rfl, hnil, hagrees⟩ := hfollows
      refine ⟨fun _ => ⟨hnil, ?_⟩, fun hnot => absurd ⟨rfl, .inl hc⟩ hnot⟩
      show Same _ (cacheStates c' { e' with inbuf := b })
      rw [hcall e' b]
      have hb : Agrees (cache2Loop c' b e') (cache2Loop c' b { e' with inbuf := b }) :=
        agrees_inbuf b e'.inbuf { e' with inbuf := b }
      exact (hinbuf.trans (hagrees.trans hb)).andCache3
    | error =>
      exact ⟨fun hwaiting => absurd hwaiting.1 nofun, fun _ => hother nofun hfollows⟩
    | crash =>
      exact ⟨fun hwaiting => absurd hwaiting.1 nofun, fun _ => hother nofun hfollows⟩
    | mail =>
      exact ⟨fun hwaiting => absurd hwaiting.1 nofun, fun _ => hother nofun hfollows⟩
    | exit =>
      exact ⟨fun hwaiting => absurd hwaiting.1 nofun, fun _ => hother nofun hfollows⟩
  · have hc3 := hstate.resolve_left hc
    have hcall : ∀ x, cacheStates c { e with inbuf := x } = stateCache3 c { e with inbuf := x } := by
      intro x
      rw [cacheStates, if_neg hc]
    rw [hcall a, hcall (a ++ b)]
    exact hcache3 c e a hc3

/-- It makes no difference in which pieces a reply arrives. -/
theorem listen_eq (hstate : c.state = .cache2 ∨ c.state = .cache3) (hnil : e.inbuf = [])
    {pieces : List (List Received)} (hne : pieces ≠ []) :
    Same (listen c e pieces) (cacheStates c { e with inbuf := pieces.flatten }) := by
  induction pieces generalizing c e with
  | nil => exact absurd rfl hne
  | cons piece pieces ih =>
    obtain ⟨hwaits, hends⟩ := cacheStates_append hstate piece pieces.flatten e
    rw [listen, hnil, List.nil_append, List.flatten_cons]
    by_cases hwaiting : Waiting (cacheStates c { e with inbuf := piece })
    · rw [if_pos hwaiting]
      obtain ⟨hempty, hsame⟩ := hwaits hwaiting
      by_cases hpieces : pieces = []
      · rw [hpieces, List.flatten_nil, List.append_nil, listen]
        exact ⟨hwaiting.1.symm, rfl⟩
      · exact (ih hwaiting.2 hempty hpieces).trans ⟨hsame.1.symm, hsame.2.symm⟩
    · rw [if_neg hwaiting]
      have hsame := hends hwaiting
      exact ⟨hsame.1.symm, hsame.2.symm⟩

/-! ## What becomes of a reply -/

/-- The state in which `pop3_state_cache1` and the calls before have left the data, with a cache
file that can be read. -/
structure Ready (c : Ctx) (e : Env) : Prop where
  state : c.state = .cache2
  cur : e.data.cur = 0
  num : e.data.num < 2 ^ 32
  serverq : e.data.serverq = .empty
  inbuf : e.inbuf = []
  fault : e.fault = false
  cache : (load e).isSome

/-- All of a reply, at the end of which the connection is closed. -/
def reply (e : Env) (ls : List Line) : Env := { e with inbuf := received ls ++ [.broken] }

theorem Ready.begins (h : Ready c e) (hlisting : Listing 0 pre uids) (hnodup : uids.Nodup)
    (ls : List Line) : Begins (reply e ls) pre uids where
  listing := by
    show Listing e.data.cur pre uids
    rw [h.cur]
    exact hlisting
  nodup := hnodup
  fresh u _ := by
    show u ∉ e.data.serverq.keys
    rw [h.serverq]
    exact List.not_mem_nil

theorem accepted_resolve (hfault : e.fault = false) (hcache : (load e).isSome) :
    Accepted (resolve c e) := by
  unfold resolve cache3Select cache3Reindex
  split_ifs
  · obtain ⟨cacheq, hload⟩ := Option.isSome_iff_exists.mp hcache
    rw [hload]
    dsimp only
    split_ifs
    · unfold putln
      rw [if_neg (by simp [buildWantq, hfault])]
      exact .inr rfl
    · exact .inl rfl
  · exact .inl rfl

/-- The two states when the front of a reply is a listing. -/
theorem cacheStates_begins (h : Ready c e) (hlisting : Listing 0 pre uids) (hnodup : uids.Nodup)
    (hlength : pre.length ≤ e.data.num) {ls : List Line} (hsplit : ls = pre ++ post) :
    stateCache2 c (reply e ls) =
      cache2Loop c (received post ++ [.broken]) (addUids (reply e ls) uids) := by
  have hbegins := h.begins hlisting hnodup ls
  have hcur : (reply e ls).data.cur = 0 := h.cur
  show cache2Loop c (received ls ++ [.broken]) (reply e ls) = _
  rw [hsplit, received_append, List.append_assoc, ← hsplit]
  apply cache2Loop_begins hbegins
  rw [hcur, Nat.zero_add]
  exact hlength

/-- All mails are listed. -/
theorem cacheStates_full (h : Ready c e) (hlisting : Listing 0 pre uids) (hnodup : uids.Nodup)
    (hlength : pre.length = e.data.num) {ls : List Line} (hsplit : ls = pre ++ post) :
    stateCache2 c (reply e ls) = (.again, { c with state := .cache3 },
      { addUids (reply e ls) uids with inbuf := received post ++ [.broken] }) := by
  rw [cacheStates_begins h hlisting hnodup (Nat.le_of_eq hlength) hsplit]
  apply cache2Loop_full
  have hcur : (reply e ls).data.cur = 0 := h.cur
  rw [cur_addUids, num_addUids, hcur, Nat.zero_add, ← hlisting.length]
  exact hlength

theorem Passes.accepted (h : Ready c e) {ls : List Line} (hpasses : Passes e.data.num ls) :
    Accepted (cacheStates c (reply e ls)) ∧ readsOutside c (reply e ls) = false := by
  obtain ⟨pre, l, ⟨⟨rest, hsplit⟩, uids, hlisting, hnodup⟩, hlength, hne, hends⟩ := hpasses
  have hfull := cacheStates_full h hlisting hnodup hlength hsplit
  have hends' : endsListing l.1 l.2 = true := by
    simpa [endsListing, hne] using hends
  rw [cacheStates, if_pos h.state, readsOutside, hfull]
  dsimp only
  constructor
  · show Accepted (stateCache3 _ { addUids (reply e ls) uids with
      inbuf := .line l.1 l.2 :: (received rest ++ [.broken]) })
    rw [stateCache3_line, if_pos hends']
    apply accepted_resolve
    · show (addUids (reply e ls) uids).fault = false
      rw [fault_addUids]
      exact h.fault
    · show (load (addUids (reply e ls) uids)).isSome = true
      rw [load_addUids]
      exact h.cache
  · obtain ⟨s, stale⟩ := l
    cases s with
    | nil => exact absurd rfl hne
    | cons b s => rfl

theorem EmptyEnd.outside (h : Ready c e) {ls : List Line} (hempty : EmptyEnd e.data.num ls) :
    readsOutside c (reply e ls) = true := by
  obtain ⟨pre, ⟨s, stale⟩, ⟨⟨rest, hsplit⟩, uids, hlisting, hnodup⟩, hlength, hnil⟩ := hempty
  obtain rfl : s = [] := hnil
  rw [readsOutside, cacheStates_full h hlisting hnodup hlength hsplit]
  rfl

theorem Unblanked.outside (h : Ready c e) {ls : List Line} (hunblanked : Unblanked e.data.num ls) :
    readsOutside c (reply e ls) = true := by
  obtain ⟨pre, l, ⟨⟨rest, hsplit⟩, uids, hlisting, hnodup⟩, hlength, hnumber, hblank⟩ := hunblanked
  have hcur : (addUids (reply e ls) uids).data.cur = pre.length := by
    have hzero : (reply e ls).data.cur = 0 := h.cur
    rw [cur_addUids, hzero, Nat.zero_add, hlisting.length]
  have hnum : (addUids (reply e ls) uids).data.num = e.data.num := num_addUids _ _
  have hcrash : stateCache2 c (reply e ls) = (.crash, c, addUids (reply e ls) uids) := by
    rw [cacheStates_begins h hlisting hnodup (Nat.le_of_lt hlength) hsplit]
    show cache2Loop c (.line l.1 l.2 :: (received rest ++ [.broken])) _ = _
    rw [cache2Loop_line (by omega), if_pos (by rw [hcur]; exact hnumber), hblank]
  rw [readsOutside, hcrash]

/-- A reply gets through, or it is refused, unless the states read outside a line. -/
theorem reply_cases (h : Ready c e) (ls : List Line) :
    Passes e.data.num ls ∨ Unblanked e.data.num ls ∨ EmptyEnd e.data.num ls ∨
      ((cacheStates c (reply e ls)).1 = .error ∧ ¬ Accepted (cacheStates c (reply e ls)) ∧
        readsOutside c (reply e ls) = false) := by
  have hzero : (reply e ls).data.cur = 0 := h.cur
  have hreply : (reply e ls).data.num = e.data.num := rfl
  obtain ⟨pre, uids, post, hsplit, hbegins, hlength, hstop⟩ :=
    exists_begins (e := reply e ls) ls (by omega)
  rw [hzero, Nat.zero_add, hreply] at hlength hstop
  have hlisting : Listing 0 pre uids := hzero ▸ hbegins.listing
  have hcur : (addUids (reply e ls) uids).data.cur = pre.length := by
    rw [cur_addUids, hzero, Nat.zero_add, hlisting.length]
  have hnum : (addUids (reply e ls) uids).data.num = e.data.num := num_addUids _ _
  have hnot : ∀ {s : State} {e' : Env}, s = .cache2 ∨ s = .cache3 →
      ¬ Accepted (.error, { c with state := s }, e') := by
    rintro s e' (rfl | rfl) haccepted
    · exact haccepted.elim nofun nofun
    · exact haccepted.elim nofun nofun
  have hc : c = { c with state := .cache2 } := by rw [← h.state]
  by_cases hfull : pre.length = e.data.num
  · have hstate := cacheStates_full h hlisting hbegins.nodup hfull hsplit
    cases post with
    | nil =>
      right; right; right
      rw [cacheStates, if_pos h.state, readsOutside, hstate]
      exact ⟨rfl, hnot (.inr rfl), rfl⟩
    | cons l rest =>
      have hbehind : Behind ls pre l := ⟨⟨rest, hsplit⟩, uids, hlisting, hbegins.nodup⟩
      by_cases hempty : l.1 = []
      · exact .inr (.inr (.inl ⟨pre, l, hbehind, hfull, hempty⟩))
      by_cases hends : endsListing l.1 [] = true
      · exact .inl ⟨pre, l, hbehind, hfull, hempty, hends⟩
      · right; right; right
        have hends' : ¬ endsListing l.1 l.2 = true := by simpa [endsListing, hempty] using hends
        have hcache3 : stateCache3 { c with state := .cache3 } { addUids (reply e ls) uids with
            inbuf := received (l :: rest) ++ [.broken] } = (.error, { c with state := .cache3 },
              { addUids (reply e ls) uids with inbuf := received rest ++ [.broken] }) := by
          show stateCache3 _ { addUids (reply e ls) uids with
            inbuf := .line l.1 l.2 :: (received rest ++ [.broken]) } = _
          rw [stateCache3_line, if_neg hends']
        rw [cacheStates, if_pos h.state, readsOutside, hstate]
        dsimp only
        rw [hcache3]
        refine ⟨rfl, hnot (.inr rfl), ?_⟩
        obtain ⟨s, stale⟩ := l
        cases s with
        | nil => exact absurd rfl hempty
        | cons b s => rfl
  · have hmore : pre.length < e.data.num := by omega
    have hstate := cacheStates_begins h hlisting hbegins.nodup (Nat.le_of_lt hmore) hsplit
    cases post with
    | nil =>
      right; right; right
      have herror : stateCache2 c (reply e ls) = (.error, c, addUids (reply e ls) uids) := by
        rw [hstate]
        exact cache2Loop_broken (by omega) []
      rw [cacheStates, if_pos h.state, readsOutside, herror]
      refine ⟨rfl, ?_, rfl⟩
      rw [hc]
      exact hnot (.inl rfl)
    | cons l rest =>
      rcases cache2Loop_stop (c := c) (e := addUids (reply e ls) uids) (by omega)
        (hstop hmore l rfl) (received rest ++ [.broken]) with
        herror | ⟨hnumber, hblank⟩
      · right; right; right
        have hrefused : stateCache2 c (reply e ls) = (.error, c, addUids (reply e ls) uids) :=
          hstate.trans herror
        rw [cacheStates, if_pos h.state, readsOutside, hrefused]
        refine ⟨rfl, ?_, rfl⟩
        rw [hc]
        exact hnot (.inl rfl)
      · rw [hcur] at hnumber
        exact .inr (.inl ⟨pre, l, ⟨⟨rest, hsplit⟩, uids, hlisting, hbegins.nodup⟩, hmore, hnumber,
          hblank⟩)

/-- What is claimed of a reply. -/
structure Validates (num : ℕ) (ls : List Line) (r : Result) (outside : Bool) : Prop where
  accepts : Accepted r ↔ WellFormed num ls
  errors : ¬ Accepted r → r.1 = .error
  inside : outside = false

/-- A line as it should be. -/
theorem lists_plain {n : ℕ} (hn : n < 2 ^ 32) {uid : List Char} (hvalid : validUid uid = true) :
    Lists n (decimal n ++ ' ' :: uid) uid where
  number := by
    have hblank : ∀ c ∈ (' ' :: uid).head?, c.isDigit = false := by
      intro c hc
      obtain rfl : ' ' = c := Option.some_inj.mp hc
      rfl
    rw [numberOf, scanNum_decimal_bits (by omega) hn hblank]
    rfl
  blank := by
    rw [Lib.Strchr.dropWhile_ne (not_mem_decimal (by decide) n)]
    exact ⟨' ', rfl⟩
  valid := hvalid

/-- The lines of a listing are taken for one. -/
theorem listing_plain {n : ℕ} {uids : List (List Char)} {ls : List Line} {rest : List (List Char)}
    (hn : n + uids.length < 2 ^ 32) (hvalid : ∀ uid ∈ uids, validUid uid = true)
    (hls : ls.map Prod.fst = listing n uids ++ rest) :
    ∃ pre post, ls = pre ++ post ∧ Listing n pre uids ∧ post.map Prod.fst = rest := by
  induction uids generalizing n ls with
  | nil => exact ⟨[], ls, rfl, .nil, hls⟩
  | cons uid uids ih =>
    cases ls with
    | nil => exact absurd hls nofun
    | cons l ls =>
      rw [List.map_cons, listing, List.cons_append] at hls
      obtain ⟨hline, hrest⟩ := List.cons.inj hls
      rw [List.length_cons] at hn
      obtain ⟨pre, post, rfl, hlisting, hpost⟩ :=
        ih (by omega) (fun u hu => hvalid u (List.mem_cons_of_mem _ hu)) hrest
      refine ⟨l :: pre, post, rfl, .cons ?_ hlisting, hpost⟩
      rw [hline]
      exact lists_plain (by omega) (hvalid uid List.mem_cons_self)

/-- A reply as it should be gets through. -/
theorem WellFormed.passes {num : ℕ} (hnum : num < 2 ^ 32) {ls : List Line} (h : WellFormed num ls) :
    Passes num ls := by
  obtain ⟨uids, rest, hlength, hnodup, hvalid, hls⟩ := h
  obtain ⟨pre, post, rfl, hlisting, hpost⟩ := listing_plain (by omega) hvalid hls
  cases post with
  | nil => exact absurd hpost nofun
  | cons l post =>
    have hdot : l.1 = ['.'] := (List.cons.inj hpost).1
    refine ⟨pre, l, ⟨⟨post, rfl⟩, uids, hlisting, hnodup⟩, hlisting.length.trans hlength, ?_, ?_⟩
    · rw [hdot]
      exact nofun
    · rw [hdot]
      rfl

end

/-- The states do with a reply what they should, in whatever pieces it arrives, just when it is as
it should be in case it gets through, and neither lacks a blank nor ends in an empty line. -/
theorem validates_iff (c : Ctx) (e : Env) (h : Ready c e) (ls : List Line)
    (pieces : List (List Received)) (hpieces : pieces.flatten = received ls ++ [.broken]) :
    Validates e.data.num ls (listen c e pieces) (readsOutside c (reply e ls)) ↔
      (Passes e.data.num ls → WellFormed e.data.num ls) ∧ ¬ Unblanked e.data.num ls ∧
        ¬ EmptyEnd e.data.num ls := by
  have hne : pieces ≠ [] := by
    rintro rfl
    exact absurd hpieces (by simp)
  have hsame : Same (listen c e pieces) (cacheStates c (reply e ls)) := by
    have hlisten := listen_eq (c := c) (.inl h.state) h.inbuf hne
    rw [hpieces] at hlisten
    exact hlisten
  have haccepted : Accepted (listen c e pieces) ↔ Accepted (cacheStates c (reply e ls)) := by
    unfold Accepted
    rw [hsame.2]
  constructor
  · intro hvalid
    refine ⟨fun hpasses => ?_, fun hunblanked => ?_, fun hempty => ?_⟩
    · exact hvalid.accepts.mp (haccepted.mpr (hpasses.accepted h).1)
    · exact absurd (hvalid.inside.symm.trans (hunblanked.outside h)) nofun
    · exact absurd (hvalid.inside.symm.trans (hempty.outside h)) nofun
  · rintro ⟨hwell, hunblanked, hempty⟩
    rcases reply_cases h ls with hpasses | hbad | hbad | ⟨herror, hnot, hinside⟩
    · obtain ⟨hyes, hinside⟩ := hpasses.accepted h
      exact ⟨⟨fun _ => hwell hpasses, fun _ => haccepted.mpr hyes⟩,
        fun hno => absurd (haccepted.mpr hyes) hno, hinside⟩
    · exact absurd hbad hunblanked
    · exact absurd hbad hempty
    · refine ⟨⟨fun hyes => absurd (haccepted.mp hyes) hnot, fun hgood => ?_⟩,
        fun _ => hsame.1.trans herror, hinside⟩
      exact haccepted.mpr ((hgood.passes h.num).accepted h).1

/-! ## Two replies -/

/-- The data in front of a reply about `num` mails. -/
def listingOf (num : ℕ) : Env := { data := { path := false, num := num }, hist := {} }

theorem ready_listingOf {num : ℕ} (hnum : num < 2 ^ 32) : Ready { state := .cache2 } (listingOf num) :=
  ⟨rfl, rfl, hnum, rfl, rfl, rfl, rfl⟩

/-- A mail, and a dot. -/
def plainReply : List Line := [(['1', ' ', 'a'], []), (['.'], [])]

theorem wellFormed_plainReply : WellFormed 1 plainReply :=
  ⟨[['a']], [], rfl, by decide, by decide, by decide⟩

theorem validates_plainReply :
    Validates 1 plainReply (listen { state := .cache2 } (listingOf 1) [received plainReply, [.broken]])
      (readsOutside { state := .cache2 } (reply (listingOf 1) plainReply)) := by
  refine (validates_iff { state := .cache2 } (listingOf 1) (ready_listingOf (by decide)) plainReply
    [received plainReply, [.broken]] rfl).mpr ⟨fun _ => wellFormed_plainReply, ?_, ?_⟩
  · intro hunblanked
    exact absurd (hunblanked.outside (ready_listingOf (by decide))) (by decide)
  · intro hempty
    exact absurd (hempty.outside (ready_listingOf (by decide))) (by decide)

/-- A mail, and anything that begins with a dot. -/
def dottedReply : List Line := [(['1', ' ', 'a'], []), (['.', 'x'], [])]

/-- It is accepted. -/
theorem dotted_accepted :
    ¬ ∀ (c : Ctx) (e : Env), Ready c e → ∀ (ls : List Line) (pieces : List (List Received)),
      pieces.flatten = received ls ++ [.broken] →
        Validates e.data.num ls (listen c e pieces) (readsOutside c (reply e ls)) := by
  intro h
  have hvalid := h _ _ (ready_listingOf (show 1 < 2 ^ 32 by decide)) dottedReply
    [received dottedReply ++ [.broken]] (by simp)
  obtain ⟨uids, rest, hlength, -, -, hls⟩ := hvalid.accepts.mp (by decide)
  obtain ⟨uid, rfl⟩ := List.length_eq_one_iff.mp hlength
  have hlast : [['.', 'x']] = ['.'] :: rest := (List.cons.inj hls).2
  exact absurd (List.cons.inj hlast).1 (by decide)

end Fdm.Pop3
