import Fdm.Imap.Theorems

/-!
# The answers to `SELECT`

A server answers `SELECT` with untagged responses, in any order, and a tagged `OK`. They arrive
one by one while `imap_state_select3` and `imap_state_select4` are called, and queued mails are
committed in between.

* `select3Loop_picks`: the number that is read is that of the first response that has one;
* `messages_iff`: so it is the number of messages just when an `EXISTS` comes first, or has the
  same number.
-/

namespace Fdm.Imap

open Fdm.Fetch Lib.Scanf Lib.Runs

variable {conf : Conf} {pton : List Char → Option (List Char)}

/-! ## Responses -/

/-- What a response code or a word starts with. -/
abbrev Letter := { c : Char // c.isAlpha = true }

/-- An untagged response: a 32-bit number and what it counts, or a word and what follows. -/
inductive Response
  | counted (n : Fin (2 ^ 32)) (word : List Char)
  | worded (c : Letter) (text : List Char)

/-- The line of a response. -/
def Response.line : Response → List Char
  | .counted n word => '*' :: ' ' :: (decimal n ++ ' ' :: word)
  | .worded c text => '*' :: ' ' :: c.val :: text

/-- The number in front of a response. -/
def Response.count : Response → Option ℕ
  | .counted n _ => some n
  | .worded _ _ => none

/-- `"EXISTS"`. -/
def existsWord : List Char := ['E', 'X', 'I', 'S', 'T', 'S']

/-- The number of messages, if the response says it; the case of a keyword does not matter. -/
def Response.messages : Response → Option ℕ
  | .counted n word => if word.map Char.toUpper = existsWord then some n else none
  | .worded _ _ => none

/-- The first number in the responses. -/
def firstCount (rs : List Response) : Option ℕ := rs.findSome? Response.count

/-- The number of the first `EXISTS` response. -/
def messageCount (rs : List Response) : Option ℕ := rs.findSome? Response.messages

/-- The line that ends the answer. -/
def tagLine (tag : ℕ) (text : List Char) : List Char := decimal tag ++ ' ' :: text

/-! ## What the client makes of a response -/

theorem cstr_cons {c : Char} {s : List Char} (hc : c ≠ '\x00') :
    cstr (c :: s) = c :: cstr s := by
  rw [cstr, List.takeWhile_cons_of_pos (by simpa using hc)]
  rfl

theorem cstr_decimal (n : ℕ) (s : List Char) : cstr (decimal n ++ s) = decimal n ++ cstr s := by
  rw [cstr, List.takeWhile_append_of_pos (Lib.Strchr.all_ne (not_mem_decimal (by decide) n))]
  rfl

theorem imapParse_star {type : LineType} {tag : ℕ} {s : List Char} :
    imapParse type tag ('*' :: ' ' :: s) =
      match type with
      | .raw | .untagged => .ok
      | .tagged | .continue => .ignore := by
  have htag : imapTag ('*' :: ' ' :: s) = .none := by simp [imapTag]
  cases type <;> simp [imapParse, htag]

/-- A line with a tag is not an untagged one. -/
theorem imapParse_tagLine (tag n : ℕ) (text : List Char) :
    imapParse .untagged tag (cstr (tagLine n text)) ≠ .ok := by
  obtain ⟨d, ds, hds⟩ := List.exists_cons_of_ne_nil (decimal_ne_nil n)
  have hdigit : d.isDigit = true := by
    apply isDigit_of_mem_decimal (n := n)
    rw [hds]
    exact List.mem_cons_self
  have hd : d ≠ '*' := by
    rintro rfl
    exact absurd hdigit (by decide)
  have htag : imapTag (cstr (tagLine n text)) ≠ .none := by
    rw [tagLine, cstr_decimal, hds, List.cons_append, imapTag, if_neg]
    · split_ifs
      · nofun
      · split <;> nofun
    · intro hprefix
      rw [List.cons_prefix_cons] at hprefix
      exact hd hprefix.1.symm
  rw [imapParse]
  cases h : imapTag (cstr (tagLine n text)) with
  | none => exact absurd h htag
  | «continue» => nofun
  | error => nofun
  | num m => nofun

/-- A response is an untagged line. -/
theorem imapParse_response (tag : ℕ) (r : Response) :
    imapParse .untagged tag (cstr r.line) = .ok := by
  cases r with
  | counted n word =>
    rw [Response.line, cstr_cons (by decide), cstr_cons (by decide), imapParse_star]
  | worded c text =>
    rw [Response.line, cstr_cons (by decide), cstr_cons (by decide), imapParse_star]

theorem isSpace_of_isAlpha {c : Char} (hc : c.isAlpha = true) : isSpace c = false := by
  simp only [isSpace, Bool.or_eq_false_iff, decide_eq_false_iff_not]
  refine ⟨⟨⟨⟨⟨?_, ?_⟩, ?_⟩, ?_⟩, ?_⟩, ?_⟩ <;> rintro rfl <;> exact absurd hc (by decide)

/-- No number is read from a word. -/
theorem scanNum_letter {bits : ℕ} {c : Char} (hc : c.isAlpha = true) (s : List Char) :
    scanNum bits (c :: s) = none := by
  have hdigit : c.isDigit = false := by
    by_contra h
    rw [Bool.not_eq_false] at h
    have halpha : c.isUpper = true ∨ c.isLower = true := Bool.or_eq_true_iff.mp hc
    have hupper : c.isUpper = true → 'A'.val ≤ c.val := fun h => (of_decide_eq_true h).1
    have hlower : c.isLower = true → 'a'.val ≤ c.val := fun h =>
      of_decide_eq_true (Bool.and_eq_true_iff.mp h).1
    have hnine : c.val ≤ '9'.val := of_decide_eq_true (Bool.and_eq_true_iff.mp h).2
    -- the letters stand behind the digits
    rcases halpha with halpha | halpha
    · exact absurd (UInt32.le_trans (hupper halpha) hnine) (by decide)
    · exact absurd (UInt32.le_trans (hlower halpha) hnine) (by decide)
  have hsign : takeSign (c :: s) = (false, c :: s) := by
    unfold takeSign
    split
    · next heq => cases heq; exact absurd hc (by decide)
    · next heq => cases heq; exact absurd hc (by decide)
    · rfl
  have hskip : (c :: s).dropWhile isSpace = c :: s := by
    rw [List.dropWhile_cons_of_neg]
    simp [isSpace_of_isAlpha hc]
  simp [scanNum, hskip, hsign, hdigit]

/-- Literals store nothing. -/
theorem scan_lits (w s : List Char) : (scan (lits w) s).1 = [] := by
  induction w generalizing s with
  | nil => rfl
  | cons c w ih =>
    cases s with
    | nil => rfl
    | cons x s =>
      show (if x = c then scan (lits w) s else ([], x :: s)).1 = []
      by_cases hx : x = c
      · rw [if_pos hx, ih]
      · rw [if_neg hx]

/-- `sscanf` returns one for any response with a number, whatever is counted. -/
theorem sscanf_response (r : Response) :
    sscanf existsLine (cstr r.line) = r.count.toList := by
  cases r with
  | counted n word =>
    have hscan : scanNum 32 (decimal n ++ ' ' :: cstr word) = some (n.val, ' ' :: cstr word) :=
      scanNum_decimal_bits (by decide) n.isLt (by simp)
    have hrest := scan_lits existsWord ((' ' :: cstr word).dropWhile isSpace)
    rw [Response.line, cstr_cons (by decide), cstr_cons (by decide), cstr_decimal,
      cstr_cons (by decide)]
    show (scan (.lit '*' :: .space :: u32 :: .space :: lits existsWord)
      ('*' :: ' ' :: (decimal n ++ ' ' :: cstr word))).1 = [n.val]
    rw [scan, if_pos rfl, scan, dropWhile_blank_decimal, u32, scan, hscan]
    show n.val :: (scan (lits existsWord) ((' ' :: cstr word).dropWhile isSpace)).1 = [n.val]
    rw [hrest]
  | worded c text =>
    have hnul : c.val ≠ '\x00' := by
      intro h
      exact absurd (h ▸ c.property) (by decide)
    have hskip : (' ' :: c.val :: cstr text).dropWhile isSpace = c.val :: cstr text := by
      rw [List.dropWhile_cons_of_pos (by decide), List.dropWhile_cons_of_neg]
      simp [isSpace_of_isAlpha c.property]
    rw [Response.line, cstr_cons (by decide), cstr_cons (by decide), cstr_cons hnul]
    show (scan (.lit '*' :: .space :: u32 :: .space :: lits existsWord)
      ('*' :: ' ' :: c.val :: cstr text)).1 = []
    rw [scan, if_pos rfl, scan, hskip, u32, scan, scanNum_letter c.property]

/-! ## The exchange -/

/-- The fetch, and the lines the server has still to send. -/
structure Exchange where
  loop : Loop Env State FetchImapMail
  pending : List (List Char)

/-- The next line arrives, the loop goes round, or a queued mail is done with. -/
inductive Move
  | arrive (stale : List Char)
  | pass
  | dequeue (n : ℕ) (d : Decision)

/-- The states that take the answers to `SELECT`. -/
def State.selecting : State → Bool
  | .select3 | .select4 => true
  | _ => false

/-- One step, while the answer is taken. -/
def exchangeStep (conf : Conf) (pton : List Char → Option (List Char)) (x : Exchange) :
    Move → Option Exchange
  | .arrive stale =>
    if !x.loop.fctx.state.selecting then none
    else
      match x.pending with
      | [] => none
      | s :: pending =>
        (step (fetcher conf pton) conf x.loop (.input (.line s stale))).map fun l => ⟨l, pending⟩
  | .pass =>
    if !x.loop.fctx.state.selecting then none
    else (step (fetcher conf pton) conf x.loop .pass).map fun l => ⟨l, x.pending⟩
  | .dequeue n d =>
    if !x.loop.fctx.state.selecting then none
    else (step (fetcher conf pton) conf x.loop (.dequeue n d)).map fun l => ⟨l, x.pending⟩

/-- `SELECT` has been sent: the responses and the tagged line are still to come. -/
def exchange (l : Loop Env State FetchImapMail) (rs : List Response) (tag : ℕ)
    (text : List Char) : Exchange :=
  ⟨l, rs.map Response.line ++ [tagLine tag text]⟩

/-- The answer has been taken, and the fetch goes on. -/
def Exchange.Over (x : Exchange) : Prop :=
  x.loop.Running ∧ x.loop.fctx.state.selecting = false

instance (x : Exchange) : Decidable x.Over := inferInstanceAs (Decidable (_ ∧ _))

/-! ## What is known while the answer is taken -/

/-- A line as it arrives. -/
def received (p : List Char × List Char) : Received := .line (cstr p.1) (cstr p.2)

/-- Nothing has been counted yet; or the first number has been read; or the folder is left
because the number was zero, or searched because it was not. -/
def Picked (rs : List Response) (tag : ℕ) (text : List Char) (pending : List (List Char)) :
    State → Env → Prop
  | .select3, e => ∃ (rest : List Response) (got : List (List Char × List Char)),
      firstCount rest = firstCount rs ∧ e.inbuf = got.map received ∧
      got.map Prod.fst ++ pending = rest.map Response.line ++ [tagLine tag text]
  | .select4, e => firstCount rs = some e.data.total
  | s, e => firstCount rs = some e.data.total ∧ (s = .close ↔ e.data.total = 0)

/-- What a call has to give back. -/
def Keeps (P : State → Env → Prop) : Result → Prop
  | (.again, c, e) => P c.state e
  | (.block, c, e) => P c.state e
  | (.mail, _, _) => False
  | (.exit, _, _) => False
  | (.error, _, _) => True
  | (.crash, _, _) => True

variable {rs : List Response} {tag : ℕ} {text : List Char} {pending : List (List Char)} {c : Ctx}
  {e : Env}

theorem firstCount_cons (r : Response) (rs : List Response) :
    firstCount (r :: rs) = r.count.or (firstCount rs) := by
  rw [firstCount, List.findSome?_cons, firstCount]
  cases r.count <;> rfl

/-- The number that `imap_state_select3` picks. -/
theorem select3Loop_picks {got : List (List Char × List Char)} {rest : List Response}
    (hs : c.state = .select3) (hrest : firstCount rest = firstCount rs)
    (hlines : got.map Prod.fst ++ pending = rest.map Response.line ++ [tagLine tag text]) :
    Keeps (Picked rs tag text pending) (select3Loop c (got.map received) e) := by
  induction got generalizing rest with
  | nil =>
    show Picked rs tag text pending c.state { e with inbuf := [] }
    rw [hs]
    exact ⟨rest, [], hrest, rfl, hlines⟩
  | cons p got ih =>
    rw [List.map_cons, received, select3Loop]
    rw [List.map_cons, List.cons_append] at hlines
    cases rest with
    | nil =>
      -- the tagged line comes too early
      rw [List.map_nil, List.nil_append, List.cons.injEq] at hlines
      have hparse := imapParse_tagLine e.data.tag tag text
      rw [hlines.1]
      cases h : imapParse .untagged e.data.tag (cstr (tagLine tag text)) with
      | ok => exact absurd h hparse
      | ignore => trivial
      | invalid => trivial
    | cons r rest =>
      rw [List.map_cons, List.cons_append, List.cons.injEq] at hlines
      rw [firstCount_cons] at hrest
      rw [hlines.1, imapParse_response]
      dsimp only
      rw [sscanf_response]
      cases hcount : r.count with
      | none =>
        rw [hcount, Option.none_or] at hrest
        exact ih hrest hlines.2
      | some n =>
        rw [hcount, Option.some_or] at hrest
        exact hrest.symm

/-- The tagged line leads out of the exchange, one way or the other. -/
theorem select4_picks (hs : c.state = .select4) (htotal : firstCount rs = some e.data.total) :
    Keeps (Picked rs tag text pending) (stateSelect4 c e) := by
  have hloop : ∀ ls : List Received, Keeps (Picked rs tag text pending)
      (getlnLoop .tagged c e (fun line e =>
        if imapOkay line then
          if e.data.total = 0 then putTagged .close .close c e
          else (.again, { c with state := .search1 }, e)
        else (.error, c, e)) ls) := by
    intro ls
    induction ls with
    | nil =>
      show Picked rs tag text pending c.state { e with inbuf := [] }
      rw [hs]
      exact htotal
    | cons r ls ih =>
      cases r with
      | broken => trivial
      | line s stale =>
        rw [getlnLoop]
        cases imapParse .tagged e.data.tag s with
        | invalid => trivial
        | ignore => exact ih
        | ok =>
          dsimp only
          by_cases hokay : imapOkay (seen .tagged s stale) = true
          · rw [if_pos hokay]
            by_cases hzero : e.data.total = 0
            · rw [if_pos hzero, putTagged, putln]
              by_cases hfault : e.fault = true
              · rw [if_pos hfault]
                trivial
              · rw [if_neg hfault]
                exact ⟨htotal, iff_of_true rfl hzero⟩
            · rw [if_neg hzero]
              exact ⟨htotal, iff_of_false nofun hzero⟩
          · rw [if_neg hokay]
            trivial
  exact hloop e.inbuf

/-- A call while the answer is taken. -/
theorem state_picks (hs : c.state.selecting = true)
    (h : Picked rs tag text pending c.state e) :
    Keeps (Picked rs tag text pending) (state conf pton c e) := by
  cases hstate : c.state with
  | select3 =>
    rw [hstate] at h
    obtain ⟨rest, got, hrest, hbuf, hlines⟩ := h
    have hcall : state conf pton c e = select3Loop c (got.map received) e := by
      rw [state, hstate, ← hbuf, stateSelect3]
    rw [hcall]
    exact select3Loop_picks hstate hrest hlines
  | select4 =>
    rw [hstate] at h
    have hcall : state conf pton c e = stateSelect4 c e := by rw [state, hstate]
    rw [hcall]
    exact select4_picks hstate h
  | _ =>
    rw [hstate] at hs
    cases hs

/-! ## Steps -/

/-- What is known of an exchange that has not been given up. -/
def Exchange.Sound (rs : List Response) (tag : ℕ) (text : List Char) (x : Exchange) : Prop :=
  x.loop.aborted = false → Picked rs tag text x.pending x.loop.fctx.state x.loop.data

variable {l : Loop Env State FetchImapMail}

/-- The part of the data that a commit leaves alone. -/
theorem Picked.congr {s : State} {e' : Env} (h : Picked rs tag text pending s e)
    (hbuf : e'.inbuf = e.inbuf) (htotal : e'.data.total = e.data.total) :
    Picked rs tag text pending s e' := by
  cases s with
  | select3 =>
    obtain ⟨rest, got, hrest, hgot, hlines⟩ := h
    exact ⟨rest, got, hrest, hbuf.trans hgot, hlines⟩
  | select4 =>
    show firstCount rs = some e'.data.total
    rw [htotal]
    exact h
  | _ =>
    refine ⟨?_, ?_⟩
    · rw [htotal]
      exact h.1
    · rw [htotal]
      exact h.2

/-- A call of the fetcher keeps what was picked out of the responses. -/
theorem picked_call (hs : l.fctx.state.selecting = true)
    (h : Picked rs tag text pending l.fctx.state l.data)
    (hlive : (l.call (fetcher conf pton) conf).aborted = false) :
    Picked rs tag text pending (l.call (fetcher conf pton) conf).fctx.state
      (l.call (fetcher conf pton) conf).data := by
  have hkeeps : Keeps (Picked rs tag text pending) ((fetcher conf pton).state l.fctx l.data) :=
    state_picks hs h
  rw [Loop.call] at hlive ⊢
  rcases hr : (fetcher conf pton).state l.fctx l.data with ⟨code, c, e⟩
  rw [hr] at hkeeps hlive
  cases code with
  | again => exact hkeeps
  | block => exact hkeeps
  | error => cases hlive
  | crash => cases hlive
  | mail => exact hkeeps.elim
  | exit => exact hkeeps.elim

theorem picked_pass (hs : l.fctx.state.selecting = true)
    (h : Picked rs tag text pending l.fctx.state l.data)
    (hlive : (l.pass (fetcher conf pton) conf).aborted = false) :
    Picked rs tag text pending (l.pass (fetcher conf pton) conf).fctx.state
      (l.pass (fetcher conf pton) conf).data := by
  have hagree := agree_prepare conf l
  rw [Loop.pass] at hlive ⊢
  by_cases hcalls : l.calls conf = true
  · rw [if_pos hcalls] at hlive ⊢
    apply picked_call
    · show ((l.purge conf).hold conf).fctx.state.selecting = true
      rw [hagree.state]
      exact hs
    · show Picked rs tag text pending ((l.purge conf).hold conf).fctx.state
        ((l.purge conf).hold conf).data
      rw [hagree.state, hagree.data]
      exact h
    · exact hlive
  · rw [if_neg hcalls, hagree.state, hagree.data]
    exact h

theorem imapCommit_keeps (m : Mail FetchImapMail) (e : Env) :
    (imapCommit m e).2.2.inbuf = e.inbuf ∧ (imapCommit m e).2.2.data.total = e.data.total := by
  rw [imapCommit]
  split
  · exact ⟨rfl, rfl⟩
  · split <;> exact ⟨rfl, rfl⟩

theorem picked_dequeue {n : ℕ} {m : Mail FetchImapMail} {d : Decision}
    (h : Picked rs tag text pending l.fctx.state l.data)
    (hlive : (l.dequeue (fetcher conf pton) conf n m d).aborted = false) :
    Picked rs tag text pending (l.dequeue (fetcher conf pton) conf n m d).fctx.state
      (l.dequeue (fetcher conf pton) conf n m d).data := by
  rw [Loop.dequeue] at hlive ⊢
  generalize (if conf.keepAll then Decision.keep else d) = dec at hlive ⊢
  have hkeeps := imapCommit_keeps { m with decision := dec } l.data
  have hcommit : (fetcher conf pton).commit { m with decision := dec } l.data
      = imapCommit { m with decision := dec } l.data := rfl
  rcases hr : imapCommit { m with decision := dec } l.data with ⟨code, m', e⟩
  rw [hr] at hkeeps
  rw [hcommit, hr] at hlive
  rw [hcommit, hr]
  have hdone : ∀ l' : Loop Env State FetchImapMail, l'.fctx = l.fctx → l'.data = e →
      Picked rs tag text pending (l'.count dec).fctx.state (l'.count dec).data := by
    intro l' hfctx hdata
    rw [(agree_count dec l').state, (agree_count dec l').data, hfctx, hdata]
    exact h.congr hkeeps.1 hkeeps.2
  cases code with
  | error => cases hlive
  | crash => cases hlive
  | _ => exact hdone _ rfl rfl

/-- A line that arrives changes nothing yet. -/
theorem picked_arrive {s stale : List Char}
    (h : Picked rs tag text (s :: pending) l.fctx.state l.data) :
    Picked rs tag text pending l.fctx.state (input (.line s stale) l.data) := by
  cases hstate : l.fctx.state with
  | select3 =>
    rw [hstate] at h
    obtain ⟨rest, got, hrest, hgot, hlines⟩ := h
    refine ⟨rest, got ++ [(s, stale)], hrest, ?_, ?_⟩
    · rw [input, hgot, List.map_append]
      rfl
    · rw [List.map_append, List.append_assoc]
      exact hlines
  | _ =>
    rw [hstate] at h
    exact h

/-- A step, and the state it is taken in. -/
theorem exchangeStep_cases {x x' : Exchange} {mv : Move}
    (h : exchangeStep conf pton x mv = some x') :
    x.loop.fctx.state.selecting = true ∧ x.loop.aborted = false ∧
      ((∃ s stale, x.pending = s :: x'.pending ∧
          x'.loop = { x.loop with data := input (.line s stale) x.loop.data }) ∨
        (x'.pending = x.pending ∧ x'.loop = x.loop.pass (fetcher conf pton) conf) ∨
        ∃ n m d, x'.pending = x.pending ∧
          x'.loop = x.loop.dequeue (fetcher conf pton) conf n m d) := by
  -- the loop goes on as long as it has not ended
  have hlive : ∀ {a l}, step (fetcher conf pton) conf x.loop a = some l →
      x.loop.ended = false ∧ x.loop.aborted = false := by
    intro a l hstep
    have hended : x.loop.ended = false := by
      by_contra hended
      rw [Bool.not_eq_false] at hended
      cases a <;> simp [step, hended] at hstep
    refine ⟨hended, ?_⟩
    rw [Loop.ended, Bool.or_eq_false_iff] at hended
    exact hended.1
  cases mv with
  | arrive stale =>
    rw [exchangeStep] at h
    split_ifs at h with hs
    rw [Bool.not_eq_true, Bool.not_eq_false'] at hs
    cases hpending : x.pending with
    | nil =>
      rw [hpending] at h
      cases h
    | cons s pending =>
      rw [hpending] at h
      obtain ⟨l, hl, rfl⟩ := Option.map_eq_some_iff.mp h
      obtain ⟨hended, haborted⟩ := hlive hl
      rw [step, if_neg (Bool.eq_false_iff.mp hended)] at hl
      exact ⟨hs, haborted, Or.inl ⟨s, stale, rfl, (Option.some.inj hl).symm⟩⟩
  | pass =>
    rw [exchangeStep] at h
    split_ifs at h with hs
    rw [Bool.not_eq_true, Bool.not_eq_false'] at hs
    obtain ⟨l, hl, rfl⟩ := Option.map_eq_some_iff.mp h
    obtain ⟨hended, haborted⟩ := hlive hl
    rw [step, if_neg (Bool.eq_false_iff.mp hended)] at hl
    exact ⟨hs, haborted, Or.inr (Or.inl ⟨rfl, (Option.some.inj hl).symm⟩)⟩
  | dequeue n d =>
    rw [exchangeStep] at h
    split_ifs at h with hs
    rw [Bool.not_eq_true, Bool.not_eq_false'] at hs
    obtain ⟨l, hl, rfl⟩ := Option.map_eq_some_iff.mp h
    obtain ⟨hended, haborted⟩ := hlive hl
    rw [step, if_neg (Bool.eq_false_iff.mp hended)] at hl
    obtain ⟨m, -, hm⟩ := Option.map_eq_some_iff.mp hl
    exact ⟨hs, haborted, Or.inr (Or.inr ⟨n, m, d, rfl, hm.symm⟩)⟩

/-- Each step of the exchange keeps it. -/
theorem sound_step {x x' : Exchange} {mv : Move} (hx : x.Sound rs tag text)
    (h : exchangeStep conf pton x mv = some x') : x'.Sound rs tag text := by
  obtain ⟨hs, haborted, hstep⟩ := exchangeStep_cases h
  have hpicked := hx haborted
  intro hlive
  rcases hstep with ⟨s, stale, hpending, hloop⟩ | ⟨hpending, hloop⟩ | ⟨n, m, d, hpending, hloop⟩
  · rw [hpending] at hpicked
    rw [hloop]
    exact picked_arrive hpicked
  · rw [hloop] at hlive
    rw [hloop, hpending]
    exact picked_pass hs hpicked hlive
  · rw [hloop] at hlive
    rw [hloop, hpending]
    exact picked_dequeue hpicked hlive

/-! ## The number of messages -/

/-- At first nothing has been picked. -/
theorem sound_exchange (hs : l.fctx.state = .select3) (hbuf : l.data.inbuf = []) :
    (exchange l rs tag text).Sound rs tag text := by
  intro _
  show Picked rs tag text (rs.map Response.line ++ [tagLine tag text]) l.fctx.state l.data
  rw [hs]
  exact ⟨rs, [], rfl, hbuf, rfl⟩

/-- What an exchange ends with. -/
theorem firstCount_of_over {x : Exchange} (hx : x.Sound rs tag text) (hover : x.Over) :
    firstCount rs = some x.loop.data.data.total ∧
      (x.loop.fctx.state = .close ↔ x.loop.data.data.total = 0) := by
  have hpicked := hx hover.1.2
  have hs := hover.2
  cases hstate : x.loop.fctx.state <;> rw [hstate] at hpicked hs <;>
    first | exact hpicked | cases hs

/-- The number of messages is read, and decides what is done, just when the first number that the
server sends is that of its first `EXISTS`. -/
theorem messages_iff {x : Exchange} {ms : List Move} (hs : l.fctx.state = .select3)
    (hbuf : l.data.inbuf = [])
    (h : exec (exchangeStep conf pton) (exchange l rs tag text) ms = some x) (hover : x.Over) :
    (messageCount rs = some x.loop.data.data.total ∧
        (x.loop.fctx.state = .close ↔ messageCount rs = some 0)) ↔
      firstCount rs = messageCount rs := by
  have hx : x.Sound rs tag text :=
    (reach_of_exec h).invariant (sound_exchange hs hbuf) fun _ _ _ hx _ hstep =>
      sound_step hx hstep
  obtain ⟨hcount, hclose⟩ := firstCount_of_over hx hover
  rw [hcount]
  constructor
  · intro hread
    exact hread.1.symm
  · intro hread
    refine ⟨hread.symm, ?_⟩
    rw [hclose, ← hread, Option.some.injEq]

theorem selecting_runs :
    (exec (step (fetcher {} fun _ => none) {}) sampleBegin
      (connectFirst ++ [.pass, srv ['+'], .pass])).isSome = true := by decide

/-- A fetch that has just sent `SELECT`. -/
def selecting : Loop Env State FetchImapMail :=
  (exec (step (fetcher {} fun _ => none) {}) sampleBegin
    (connectFirst ++ [.pass, srv ['+'], .pass])).get selecting_runs

/-- `* FLAGS ()`. -/
def flagsResponse : Response := .worded ⟨'F', by decide⟩ ['L', 'A', 'G', 'S', ' ', '(', ')']

/-- `* 0 RECENT`. -/
def recentResponse : Response := .counted 0 ['R', 'E', 'C', 'E', 'N', 'T']

/-- `* 1 EXISTS`. -/
def existsResponse : Response := .counted 1 existsWord

/-- Three responses and the tagged line. -/
def answer : List Move := [.arrive [], .pass, .arrive [], .arrive [], .pass, .arrive [], .pass]

theorem existsFirst_runs :
    (exec (exchangeStep {} fun _ => none)
      (exchange selecting [flagsResponse, existsResponse, recentResponse] 1 ['O', 'K'])
      answer).isSome = true := by decide

theorem messages_iff_existsFirst :
    ∃ x : Exchange, x.loop.fctx.state = .search1 ∧
      ((messageCount [flagsResponse, existsResponse, recentResponse] =
            some x.loop.data.data.total ∧
          (x.loop.fctx.state = .close ↔
            messageCount [flagsResponse, existsResponse, recentResponse] = some 0)) ↔
        firstCount [flagsResponse, existsResponse, recentResponse] =
          messageCount [flagsResponse, existsResponse, recentResponse]) :=
  ⟨_, by decide +kernel, messages_iff (by decide +kernel) (by decide +kernel)
    (Option.some_get existsFirst_runs).symm (by decide +kernel)⟩

theorem recentFirst_runs :
    (exec (exchangeStep {} fun _ => none)
      (exchange selecting [flagsResponse, recentResponse, existsResponse] 1 ['O', 'K'])
      answer).isSome = true := by decide

/-- A folder with a mail in it is closed at once when its `RECENT` comes first. -/
theorem closed_unsearched :
    messageCount [flagsResponse, recentResponse, existsResponse] = some 1 ∧
      ∃ x : Exchange,
        exec (exchangeStep {} fun _ => none)
          (exchange selecting [flagsResponse, recentResponse, existsResponse] 1 ['O', 'K'])
          answer = some x ∧
        x.Over ∧ x.loop.data.data.total = 0 ∧ x.loop.fctx.state = .close :=
  ⟨by decide, _, (Option.some_get recentFirst_runs).symm, by decide +kernel, by decide +kernel,
    by decide +kernel⟩

end Fdm.Imap
