import Fdm.Fetch.Stream
import Fdm.Nntp.Defs
import Fdm.Pop3.Defs

/-!
# Dot-stuffed responses

POP3 and NNTP send a mail as lines that end with CRLF, with another dot in front of every line
that starts with one, and a lone dot behind the last.

* `encode` is what a server sends;
* `collect` is what both line states make of the lines: they stop adding to the mail once it
  is larger than the maximum size;
* `pop3_decodes` and `nntp_decodes` say what the line states make of the stream.
-/

namespace Fdm.Fetch

open Lib.Intake

/-- A line with the dot that a server puts in front of it. -/
def stuff (line : List Char) : List Char := if line.head? = some '.' then '.' :: line else line

/-- The lines of a response, without the ends of line. -/
def dotted (ls : List (List Char)) : List (List Char) := ls.map stuff ++ [['.']]

/-- A response, and what follows it. -/
def encode (ls : List (List Char)) (rest : List Char) : List Char :=
  joined ioCrlf (dotted ls) rest

/-- A line that can be sent: it has no NUL, CR or LF, and is not too long when it is. -/
structure Sendable (l : List Char) : Prop where
  nul : '\x00' ∉ l
  cr : '\r' ∉ l
  lf : '\n' ∉ l
  short : (stuff l).length + ioCrlf.length ≤ ioMaxlinelen

/-- What the lines add to a mail: nothing any more once it is too large. -/
def collect (max : ℕ) : List (List Char) → List Char → List Char
  | [], data => data
  | l :: ls, data =>
    if max < data.length then collect max ls data else collect max ls (data ++ l ++ ['\n'])

/-- A mail of a permitted size is collected as a whole. -/
theorem collect_fits {max : ℕ} (ls : List (List Char)) {data : List Char}
    (h : (data ++ text ls).length ≤ max) : collect max ls data = data ++ text ls := by
  induction ls generalizing data with
  | nil => simp [collect, text]
  | cons l ls ih =>
    have hdata : ¬ max < data.length := by
      rw [List.length_append] at h
      omega
    have htext : data ++ text (l :: ls) = data ++ l ++ ['\n'] ++ text ls := by simp [text]
    rw [collect, if_neg hdata, htext, ih (htext ▸ h)]

/-- What is collected stays. -/
theorem length_le_collect (max : ℕ) (ls : List (List Char)) (data : List Char) :
    data.length ≤ (collect max ls data).length := by
  induction ls generalizing data with
  | nil => exact Nat.le_refl _
  | cons l ls ih =>
    rw [collect]
    split
    · exact ih data
    · refine Nat.le_trans ?_ (ih _)
      rw [List.length_append, List.length_append]
      omega

/-- A mail that is too big is seen to be. -/
theorem collect_over {max : ℕ} (ls : List (List Char)) {data : List Char}
    (h : max < (data ++ text ls).length) : max < (collect max ls data).length := by
  induction ls generalizing data with
  | nil => simpa [collect, text] using h
  | cons l ls ih =>
    have htext : data ++ text (l :: ls) = data ++ l ++ ['\n'] ++ text ls := by simp [text]
    rw [collect]
    by_cases hdata : max < data.length
    · rw [if_pos hdata]
      exact Nat.lt_of_lt_of_le hdata (length_le_collect max ls data)
    · rw [if_neg hdata]
      exact ih (htext ▸ h)

/-! ## Stuffing and the lone dot -/

/-- A line of a mail is never the line that ends it. -/
theorem stuff_ne_dot (l : List Char) : stuff l ≠ ['.'] := by
  unfold stuff
  split
  · next h =>
    intro heq
    rw [(List.cons.inj heq).2] at h
    cases h
  · next h =>
    rintro rfl
    exact h rfl

/-- The dot in front of a line is taken away again. -/
theorem unstuff_stuff (l : List Char) : Pop3.unstuff (stuff l) = l := by
  unfold stuff
  split
  · rfl
  · next h => exact if_neg h

theorem mem_stuff {l : List Char} {c : Char} (hc : c ≠ '.') : c ∈ stuff l ↔ c ∈ l := by
  unfold stuff
  split
  · simp [hc]
  · rfl

/-- The lines of a response can be read. -/
theorem pieces_dotted {ls : List (List Char)} (hls : ∀ l ∈ ls, Sendable l) :
    ∀ l ∈ dotted ls, ¬ ioCrlf <:+: l ∧ l.length + ioCrlf.length ≤ ioMaxlinelen := by
  intro l hl
  rcases List.mem_append.mp hl with hl | hl
  · obtain ⟨x, hx, rfl⟩ := List.mem_map.mp hl
    refine ⟨fun hin => (hls x hx).cr ((mem_stuff (by decide)).mp (hin.mem ?_)), (hls x hx).short⟩
    decide
  · rw [List.mem_singleton.mp hl]
    exact ⟨by decide, by decide⟩

/-! ## The line states -/

/-- What a line state makes of a line: it leaves the loop with a lone dot, and otherwise adds
the line to the data, unless that is too large already. -/
def eatDots (max : ℕ) (data s : List Char) : Option (List Char) :=
  if s = ['.'] then none
  else if max < data.length then some data
  else some (data ++ Pop3.unstuff s ++ ['\n'])

/-- The lines of a response are collected up to the lone dot. -/
theorem loop_dotted (max : ℕ) (stale : ℕ → List Char) {lines : List (List Char)}
    (hlines : ∀ l ∈ lines, Sendable l) (n : ℕ) (more : List (List Char)) (data : List Char) :
    ∃ n', loop (eatDots max) (receive stale n (dotted lines ++ more)) data
      = (collect max lines data, some (['.'], receive stale n' more)) := by
  induction lines generalizing n data with
  | nil => exact ⟨n + 1, rfl⟩
  | cons l lines ih =>
    have hl := hlines l List.mem_cons_self
    have hrest : ∀ x ∈ lines, Sendable x := fun x hx => hlines x (List.mem_cons_of_mem l hx)
    have hnul : '\x00' ∉ stuff l := fun h => hl.nul ((mem_stuff (by decide)).mp h)
    show ∃ n', loop (eatDots max) (.line (cstr (stuff l)) (cstr (stale n)) ::
      receive stale (n + 1) (dotted lines ++ more)) data = _
    rw [loop, cstr_of_not_mem hnul, eatDots, if_neg (stuff_ne_dot l), unstuff_stuff, collect]
    by_cases hmax : max < data.length
    · rw [if_pos hmax, if_pos hmax]
      exact ih hrest (n + 1) data
    · rw [if_neg hmax, if_neg hmax]
      exact ih hrest (n + 1) _

section Loops

variable {D H ς α : Type} {max : ℕ} {st : StateFn D H ς α}
  {S : FetchCtx ς α → Wire D H → Prop} {E : Ends D H ς α (List Char)} {fctx : FetchCtx ς α}
  {e : Wire D H}

/-- The mail of a response is handed out: `FETCH_MAIL` is returned, what follows the response
is left, and the mail is the lines, or larger than the maximum size if they are. -/
def HandsOut (max : ℕ) (lines : List (List Char)) (rest : List Char)
    (r : Option (Served D H ς α)) : Prop :=
  ∃ s, r = some s ∧ s.code = .mail ∧ s.link.io.rd.contents ++ s.coming.flatten = rest ∧
    ((text lines).length ≤ max → s.fctx.mail.data = text lines) ∧
    (max < (text lines).length → max < s.fctx.mail.size)

/-- A state function that loops over lines in this way decodes a response, whatever the
chunks. -/
theorem Loops.handsOut (h : Loops st S (eatDots max) E) (hS : S fctx e)
    (hempty : E.get fctx e = [])
    (hdone : ∀ data s rest, (E.done fctx e data s rest).1 = .mail ∧
      (E.done fctx e data s rest).2.1.mail.data = data)
    {link : Link} (hlive : link.Live ioCrlf) (stale : ℕ → List Char) {lines : List (List Char)}
    (hlines : ∀ l ∈ lines, Sendable l) {rest : List Char} (chunks : List (List Char))
    (hstream : link.io.rd.contents ++ chunks.flatten = encode lines rest) :
    HandsOut max lines rest (serve st stale fctx e link chunks) := by
  have heol : Io.Eol ioCrlf := Or.inr rfl
  obtain ⟨n', hloop⟩ :=
    loop_dotted max stale hlines link.count (linesOf heol rest) (E.get fctx e)
  obtain ⟨hcode, hdata⟩ := hdone (collect max lines (E.get fctx e)) ['.']
    (receive stale n' (linesOf heol rest))
  obtain ⟨link', coming, hserve, -, hleft⟩ :=
    h.serve_done heol hS hlive chunks hstream (pieces_dotted hlines) hloop
  rw [hempty] at hserve hcode hdata
  refine ⟨_, hserve, hcode, hleft, fun hfit => ?_, fun hover => ?_⟩
  · exact hdata.trans (collect_fits lines hfit)
  · have hsize : max < (collect max lines []).length := collect_over lines hover
    rw [← hdata] at hsize
    exact hsize

end Loops

/-! ## The two protocols -/

section Pop3

variable {conf : Conf} {fctx : Pop3.Ctx} {e : Pop3.Env} {aux : Pop3.FetchPop3Mail}

/-- The POP3 fetcher while it reads the lines of a mail. -/
structure PopLine (conf : Conf) (fctx : Pop3.Ctx) (e : Pop3.Env) : Prop where
  state : fctx.state = .line
  fault : e.fault = false
  aux : fctx.mail.auxdata.isSome
  flushing : e.data.flushing = decide (conf.maxSize < fctx.mail.data.length)

/-- The environment of `pop3_state_line` after it has read lines. -/
def pop3At (conf : Conf) (e : Pop3.Env) (data : List Char) (inbuf : List Received) : Pop3.Env :=
  { e with
    inbuf := inbuf
    data := { e.data with flushing := decide (conf.maxSize < data.length) } }

/-- Pull from the want queue. -/
def pop3Pull (aux : Option Pop3.FetchPop3Mail) (e : Pop3.Env) : Pop3.Env :=
  { e with data := { e.data with wantq := aux.elim e.data.wantq e.data.wantq.erase } }

/-- How `pop3_state_line` ends. -/
def pop3Ends (conf : Conf) :
    Ends Pop3.FetchPop3Data Pop3.History Pop3.State Pop3.FetchPop3Mail (List Char) where
  get fctx _ := fctx.mail.data
  more fctx e data :=
    ({ fctx with mail := { fctx.mail with data := data } }, pop3At conf e data [])
  done fctx e data _ rest :=
    (.mail, { fctx with state := .next, mail := { fctx.mail with data := data } },
      pop3Pull fctx.mail.auxdata (pop3At conf e data rest))
  get_more _ _ _ := rfl
  inbuf_more _ _ _ := rfl
  more_more _ _ _ _ := rfl
  done_more _ _ _ _ _ _ := rfl
  code_done _ _ _ _ _ := nofun
  inbuf_done _ _ _ _ _ := rfl
  done_append _ _ _ _ _ _ := rfl

theorem pop3At_eq {m : Mail Pop3.FetchPop3Mail}
    (hflush : e.data.flushing = decide (conf.maxSize < m.data.length)) (inbuf : List Received) :
    pop3At conf e m.data inbuf = { e with inbuf := inbuf } := by
  rw [pop3At, ← hflush]

/-- The loop of `pop3_state_line` over whole lines. -/
theorem pop3_lineLoop (hwhole : Whole ls) {m : Mail Pop3.FetchPop3Mail}
    (haux : m.auxdata.isSome) (hfault : e.fault = false)
    (hflush : e.data.flushing = decide (conf.maxSize < m.data.length)) :
    Pop3.lineLoop conf fctx ls m e =
      match loop (eatDots conf.maxSize) ls m.data with
      | (data, none) => (.block, (pop3Ends conf).more { fctx with mail := m } e data)
      | (data, some (s, rest)) => (pop3Ends conf).done { fctx with mail := m } e data s rest := by
  induction ls generalizing m e with
  | nil =>
    rw [Pop3.lineLoop, loop]
    simp only [pop3Ends, pop3At_eq hflush]
  | cons x ls ih =>
    have hrest : Whole ls := fun hmem => hwhole (List.mem_cons_of_mem x hmem)
    cases x with
    | broken => exact absurd List.mem_cons_self hwhole
    | line s stale =>
      rw [Pop3.lineLoop, loop, eatDots]
      by_cases hdot : s = ['.']
      · rw [if_pos hdot, if_pos hdot]
        split
        · next hnone => simp [hnone] at haux
        · next aux hsome =>
          show _ = (FetchCode.mail, { fctx with state := Pop3.State.next, mail := m },
            pop3Pull m.auxdata (pop3At conf e m.data ls))
          rw [hsome, pop3At_eq hflush]
          rfl
      · rw [if_neg hdot, if_neg hdot]
        by_cases hmax : conf.maxSize < m.data.length
        · rw [if_pos (by simp [hflush, hmax]), if_pos hmax]
          exact ih hrest haux hfault hflush
        · rw [if_neg (by simp [hflush, hmax]), if_neg hmax, if_neg (by simp [hfault])]
          exact ih hrest haux hfault rfl

/-- The state functions of POP3 read lines in that loop. -/
theorem pop3_loops (conf : Conf) :
    Loops (Pop3.state conf) (PopLine conf) (eatDots conf.maxSize) (pop3Ends conf) where
  state := by
    intro fctx e ls hS hwhole
    have hstate : Pop3.state conf fctx { e with inbuf := ls }
        = Pop3.stateLine conf fctx { e with inbuf := ls } := by
      rw [Pop3.state, hS.state]
    have hget : (pop3Ends conf).get fctx e = fctx.mail.data := rfl
    rw [hstate, hget, Pop3.stateLine]
    rw [pop3_lineLoop (e := { e with inbuf := ls }) hwhole hS.aux hS.fault hS.flushing]
    rcases loop (eatDots conf.maxSize) ls fctx.mail.data with ⟨data, _ | ⟨s, rest⟩⟩
    · rfl
    · rfl
  more hS _ := ⟨hS.state, hS.fault, hS.aux, rfl⟩

end Pop3

section Nntp

variable {conf : Conf} {fctx : Nntp.Ctx} {e : Nntp.Env}

/-- The NNTP fetcher while it reads the lines of a mail. -/
structure NntpLine (conf : Conf) (fctx : Nntp.Ctx) (e : Nntp.Env) : Prop where
  state : fctx.state = .line
  fault : e.fault = false
  flushing : e.data.flushing = decide (conf.maxSize < fctx.mail.data.length)

/-- The environment of `fetch_nntp_state_line` after it has read lines. -/
def nntpAt (conf : Conf) (e : Nntp.Env) (data : List Char) (inbuf : List Received) : Nntp.Env :=
  { e with
    inbuf := inbuf
    data := { e.data with flushing := decide (conf.maxSize < data.length) } }

/-- How `fetch_nntp_state_line` ends: it asks for the next article. -/
def nntpEnds (conf : Conf) :
    Ends Nntp.FetchNntpData Nntp.History Nntp.State ℕ (List Char) where
  get fctx _ := fctx.mail.data
  more fctx e data :=
    ({ fctx with mail := { fctx.mail with data := data } }, nntpAt conf e data [])
  done fctx e data _ rest :=
    (.mail, (Nntp.writeline .next .next { fctx with mail := { fctx.mail with data := data } }
      (nntpAt conf e data rest)).2)
  get_more _ _ _ := rfl
  inbuf_more _ _ _ := rfl
  more_more _ _ _ _ := rfl
  done_more _ _ _ _ _ _ := rfl
  code_done _ _ _ _ _ := nofun
  inbuf_done _ _ _ _ _ := rfl
  done_append _ _ _ _ _ _ := rfl

/-- The loop of `nntp_state_line` over whole lines. -/
theorem nntp_readLines (hwhole : Whole ls) {m : Mail ℕ} {fault flushing : Bool}
    (hfault : fault = false) (hflush : flushing = decide (conf.maxSize < m.data.length)) :
    Nntp.readLines conf fault ls m flushing =
      match loop (eatDots conf.maxSize) ls m.data with
      | (data, none) =>
        .more [] { m with data := data } (decide (conf.maxSize < data.length))
      | (data, some (_, rest)) =>
        .ended rest { m with data := data } (decide (conf.maxSize < data.length)) := by
  induction ls generalizing m flushing with
  | nil => rw [Nntp.readLines, loop, hflush]
  | cons x ls ih =>
    have hrest : Whole ls := fun hmem => hwhole (List.mem_cons_of_mem x hmem)
    cases x with
    | broken => exact absurd List.mem_cons_self hwhole
    | line s stale =>
      rw [Nntp.readLines, loop, eatDots]
      by_cases hdot : s = ['.']
      · rw [if_pos hdot, if_pos hdot, hflush]
      · rw [if_neg hdot, if_neg hdot]
        by_cases hmax : conf.maxSize < m.data.length
        · rw [if_pos (by simp [hflush, hmax]), if_pos hmax]
          exact ih hrest hflush
        · rw [if_neg (by simp [hflush, hmax]), if_neg hmax, if_neg (by simp [hfault])]
          exact ih (m := m.appendLine (Pop3.unstuff s)) hrest rfl

/-- So do those of NNTP. -/
theorem nntp_loops (conf : Conf) :
    Loops (Nntp.state conf) (NntpLine conf) (eatDots conf.maxSize) (nntpEnds conf) where
  state := by
    intro fctx e ls hS hwhole
    have hstate : Nntp.state conf fctx { e with inbuf := ls }
        = Nntp.stateLine conf fctx { e with inbuf := ls } := by
      rw [Nntp.state, hS.state]
    have hread := nntp_readLines hwhole hS.fault hS.flushing
    have hget : (nntpEnds conf).get fctx e = fctx.mail.data := rfl
    rw [hstate, hget, Nntp.stateLine]
    simp only [hread]
    rcases loop (eatDots conf.maxSize) ls fctx.mail.data with ⟨data, _ | ⟨s, rest⟩⟩
    · rfl
    · rfl
  more hS _ := ⟨hS.state, hS.fault, rfl⟩

end Nntp

/-! ## Both at once -/

/-- The POP3 fetcher once `pop3_state_retr` has opened the mail. -/
def pop3Opened (fctx : Pop3.Ctx) (aux : Pop3.FetchPop3Mail) : Pop3.Ctx :=
  { fctx with state := .line, mail := { fctx.mail with data := [], auxdata := some aux } }

/-- The NNTP fetcher once `fetch_nntp_state_article` has opened the mail. -/
def nntpOpened (fctx : Nntp.Ctx) (aux : ℕ) : Nntp.Ctx :=
  { fctx with state := .line, mail := { fctx.mail with data := [], auxdata := some aux } }

/-- Dot-stuffed responses are decoded exactly, in whatever chunks they arrive and whatever
follows them. -/
theorem response_decoded (conf : Conf) (stale : ℕ → List Char) {lines : List (List Char)}
    (hlines : ∀ l ∈ lines, Sendable l) (rest : List Char) {link : Link}
    (hlive : link.Live ioCrlf) (chunks : List (List Char))
    (hstream : link.io.rd.contents ++ chunks.flatten = encode lines rest) :
    (∀ (fctx : Pop3.Ctx) (aux : Pop3.FetchPop3Mail) (e : Pop3.Env),
      HandsOut conf.maxSize lines rest
        (serve (Pop3.state conf) stale (pop3Opened fctx aux)
          { e with data := { e.data with flushing := false }, fault := false } link chunks)) ∧
    (∀ (fctx : Nntp.Ctx) (aux : ℕ) (e : Nntp.Env),
      HandsOut conf.maxSize lines rest
        (serve (Nntp.state conf) stale (nntpOpened fctx aux)
          { e with data := { e.data with flushing := false }, fault := false } link chunks)) := by
  constructor
  · intro fctx aux e
    have hline : PopLine conf (pop3Opened fctx aux)
        { e with data := { e.data with flushing := false }, fault := false } :=
      ⟨rfl, rfl, rfl, rfl⟩
    exact (pop3_loops conf).handsOut hline rfl (fun _ _ _ => ⟨rfl, rfl⟩) hlive stale hlines chunks hstream
  · intro fctx aux e
    have hline : NntpLine conf (nntpOpened fctx aux)
        { e with data := { e.data with flushing := false }, fault := false } := ⟨rfl, rfl, rfl⟩
    exact (nntp_loops conf).handsOut hline rfl (fun _ _ _ => ⟨rfl, rfl⟩) hlive stale hlines chunks hstream

theorem response_decoded_chunks :
    HandsOut 64 [['.', '.'], [], ['a']] ['x']
      (serve (Pop3.state { maxSize := 64 }) (fun _ => []) (pop3Opened { state := .line } ⟨['u'], 1⟩)
        { data := {}, hist := {} } Link.fresh
        [['.', '.', '.', '\r'], ['\n', '\r', '\n', 'a'], ['\r', '\n', '.', '\r', '\n', 'x']]) :=
  (response_decoded { maxSize := 64 } (fun _ => [])
    (by
      intro l hl
      rcases List.mem_cons.mp hl with rfl | hl
      · exact ⟨by decide, by decide, by decide, by decide⟩
      rcases List.mem_cons.mp hl with rfl | hl
      · exact ⟨by decide, by decide, by decide, by decide⟩
      rw [List.mem_singleton.mp hl]
      exact ⟨by decide, by decide, by decide, by decide⟩)
    ['x'] Link.fresh_live _ rfl).1 { state := .line } ⟨['u'], 1⟩ { data := {}, hist := {} }

end Fdm.Fetch
