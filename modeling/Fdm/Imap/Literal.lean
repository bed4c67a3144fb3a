import Fdm.Fetch.Stream
import Fdm.Imap.Defs

/-!
# Message literals

How `imap_state_body` and `imap_state_line` take a message off the stream.

* `Announces` is a line that `imap_state_body` accepts, with the size in it;
* `line_loops` and `body_loops` say that the two states take lines one by one;
* `literal_framed_iff` says which literals they take as they should, `oversize_stuck` what
  becomes of a message that is larger than the maximum size.
-/

namespace Fdm.Imap

open Fdm.Fetch Lib.Scanf Lib.Intake

/-! ## The line state -/

/-- What the loop of `imap_state_line` works on. -/
structure Progress where
  size : ℕ
  data : List Char
  lines : ℕ
  flushing : Bool

/-- What the loop makes of a line: it leaves with the first one that would exceed the expected
size. -/
def eatLine (t : Progress) (s : List Char) : Option Progress :=
  if t.flushing then some t
  else if t.size < t.data.length + t.lines + s.length + 2 then none
  else some { t with data := t.data ++ s ++ ['\n'], lines := t.lines + 1 }

/-- The progress that the mail and the environment stand for. -/
def progress (m : Mail FetchImapMail) (e : Env) : Progress :=
  ⟨e.data.size, m.data, e.data.lines, e.data.flushing⟩

/-- The fetch context and the environment with this progress. -/
def put (fctx : Ctx) (e : Env) (t : Progress) (inbuf : List Received) : Ctx × Env :=
  ({ fctx with mail := { fctx.mail with data := t.data } },
    { e with
      inbuf := inbuf
      data := { e.data with size := t.size, lines := t.lines, flushing := t.flushing } })

/-- `lastLine` does not block, and what has not been read does not matter to it. -/
theorem lastLine_spec (fctx : Ctx) (s : List Char) (m : Mail FetchImapMail) (e : Env) :
    (lastLine fctx s m e).1 ≠ .block ∧ (lastLine fctx s m e).2.2.inbuf = e.inbuf ∧
      ∀ ls, lastLine fctx s m { e with inbuf := ls } =
        ((lastLine fctx s m e).1, (lastLine fctx s m e).2.1,
          { (lastLine fctx s m e).2.2 with inbuf := ls }) := by
  unfold lastLine
  cases s.getLast? with
  | none => exact ⟨nofun, rfl, fun _ => rfl⟩
  | some c =>
    by_cases hbad : c ≠ ')' ∧ s.length ≤ e.data.size - (m.size + e.data.lines)
    · simp only [if_pos hbad]
      exact ⟨nofun, trivial, fun _ => trivial⟩
    · simp only [if_neg hbad]
      by_cases hleft : e.data.size - (m.size + e.data.lines) = 0
      · simp only [if_pos hleft]
        exact ⟨nofun, trivial, fun _ => trivial⟩
      · simp only [if_neg hleft]
        by_cases hfault : e.fault
        · simp only [if_pos hfault]
          exact ⟨nofun, trivial, fun _ => trivial⟩
        · simp only [if_neg hfault]
          exact ⟨nofun, trivial, fun _ => trivial⟩

/-- How `imap_state_line` ends. -/
def lineEnds : Ends FetchImapData History State FetchImapMail Progress where
  get fctx e := progress fctx.mail e
  more fctx e t := put fctx e t []
  done fctx e t s rest :=
    lastLine (put fctx e t rest).1 s (put fctx e t rest).1.mail (put fctx e t rest).2
  get_more _ _ _ := rfl
  inbuf_more _ _ _ := rfl
  more_more _ _ _ _ := rfl
  done_more _ _ _ _ _ _ := rfl
  code_done _ _ _ _ _ := (lastLine_spec _ _ _ _).1
  inbuf_done _ _ _ _ _ := (lastLine_spec _ _ _ _).2.1
  done_append fctx e t s rest ls' :=
    (lastLine_spec (put fctx e t rest).1 s _ (put fctx e t rest).2).2.2 (rest ++ ls')

/-- The fetcher in its line state. -/
structure Lining (fctx : Ctx) (e : Env) : Prop where
  state : fctx.state = .line
  fault : e.fault = false

variable {fctx : Ctx} {e : Env} {ls : List Received}

theorem lineLoop_eq (fctx : Ctx) (hwhole : Whole ls) (hfault : e.fault = false)
    (m : Mail FetchImapMail) :
    lineLoop fctx ls m e =
      match loop eatLine ls (progress m e) with
      | (t, none) => (.block, lineEnds.more { fctx with mail := m } e t)
      | (t, some (s, rest)) => lineEnds.done { fctx with mail := m } e t s rest := by
  induction ls generalizing m e with
  | nil => rfl
  | cons x ls ih =>
    have hrest : Whole ls := fun hmem => hwhole (List.mem_cons_of_mem x hmem)
    cases x with
    | broken => exact absurd List.mem_cons_self hwhole
    | line s stale =>
      rw [lineLoop, loop]
      by_cases hflush : e.data.flushing
      · have heat : eatLine (progress m e) s = some (progress m e) := if_pos hflush
        rw [if_pos hflush, heat]
        exact ih hrest hfault m
      · rw [if_neg hflush]
        by_cases hsize : e.data.size < m.size + e.data.lines + s.length + 2
        · have heat : eatLine (progress m e) s = none := (if_neg hflush).trans (if_pos hsize)
          rw [if_pos hsize, heat]
          rfl
        · have heat : eatLine (progress m e) s = some
              { progress m e with data := m.data ++ s ++ ['\n'], lines := e.data.lines + 1 } :=
            (if_neg hflush).trans (if_neg hsize)
          rw [if_neg hsize, if_neg (by simp [hfault]), heat]
          refine (ih hrest ?_ _).trans rfl
          exact hfault

theorem line_loops (conf : Conf) (pton : List Char → Option (List Char)) :
    Loops (state conf pton) Lining eatLine lineEnds where
  state := by
    intro fctx e ls hS hwhole
    have hstate : state conf pton fctx { e with inbuf := ls }
        = stateLine fctx { e with inbuf := ls } := by
      rw [state, hS.state]
    have hline := lineLoop_eq (e := { e with inbuf := ls }) fctx hwhole hS.fault fctx.mail
    have hget : progress fctx.mail { e with inbuf := ls } = lineEnds.get fctx e := rfl
    rw [hget] at hline
    rw [hstate, stateLine, hline]
    rcases loop eatLine ls (lineEnds.get fctx e) with ⟨t, _ | ⟨s, rest⟩⟩
    · rfl
    · rfl
  more hS _ := ⟨hS.state, hS.fault⟩

/-! ## The body state -/

/-- The body state, as a loop that it leaves with the first line. -/
def eatNone (_ : Unit) (_ : List Char) : Option Unit := none

/-- What `imap_state_body` makes of a line. -/
def bodyLine (conf : Conf) (fctx : Ctx) (e : Env) (s : List Char) (rest : List Received) :
    Result := stateBody conf fctx { e with inbuf := .line s [] :: rest }

/-- `imap_getln` for an untagged line takes the next line. -/
theorem imapGetln_untagged (fctx : Ctx) (e : Env) (s stale : List Char) (rest : List Received)
    (k : List Char → Env → Result) :
    imapGetln .untagged fctx { e with inbuf := .line s stale :: rest } k =
      match imapTag s with
      | .none => k s { e with inbuf := rest }
      | _ => (.error, fctx, { e with inbuf := rest }) := by
  rw [imapGetln, getlnLoop, imapParse]
  cases imapTag s <;> rfl

/-- `bodyLine` does not block, and what has not been read does not matter to it. -/
theorem bodyLine_spec (conf : Conf) (fctx : Ctx) (e : Env) (s : List Char)
    (rest : List Received) :
    (bodyLine conf fctx e s rest).1 ≠ .block ∧ (bodyLine conf fctx e s rest).2.2.inbuf = rest ∧
      ∀ ls, bodyLine conf fctx e s ls =
        ((bodyLine conf fctx e s rest).1, (bodyLine conf fctx e s rest).2.1,
          { (bodyLine conf fctx e s rest).2.2 with inbuf := ls }) := by
  unfold bodyLine stateBody
  simp only [imapGetln_untagged]
  cases imapTag s with
  | «continue» => exact ⟨nofun, rfl, fun _ => rfl⟩
  | error => exact ⟨nofun, rfl, fun _ => rfl⟩
  | num n => exact ⟨nofun, rfl, fun _ => rfl⟩
  | none =>
    dsimp only
    cases sscanf fetchLine s with
    | nil => exact ⟨nofun, rfl, fun _ => rfl⟩
    | cons n ns =>
      cases ns with
      | cons n' ns => exact ⟨nofun, rfl, fun _ => rfl⟩
      | nil =>
        cases strstr bodyLiteral s with
        | none => exact ⟨nofun, rfl, fun _ => rfl⟩
        | some ptr =>
          dsimp only
          cases e.data.wanted with
          | nil =>
            rcases sscanf bodySize ptr with _ | ⟨size, _ | ⟨size', sizes⟩⟩
            · exact ⟨nofun, rfl, fun _ => rfl⟩
            · exact ⟨nofun, rfl, fun _ => rfl⟩
            · exact ⟨nofun, rfl, fun _ => rfl⟩
          | cons uid wanted =>
            rcases sscanf bodySize ptr with _ | ⟨size, _ | ⟨size', sizes⟩⟩
            · exact ⟨nofun, rfl, fun _ => rfl⟩
            · by_cases hfault : e.fault
              · simp only [if_pos hfault]
                exact ⟨nofun, trivial, fun _ => trivial⟩
              · simp only [if_neg hfault]
                exact ⟨nofun, trivial, fun _ => trivial⟩
            · exact ⟨nofun, rfl, fun _ => rfl⟩

/-- How `imap_state_body` ends. -/
def bodyEnds (conf : Conf) : Ends FetchImapData History State FetchImapMail Unit where
  get _ _ := ()
  more fctx e _ := (fctx, { e with inbuf := [] })
  done fctx e _ s rest := bodyLine conf fctx e s rest
  get_more _ _ _ := rfl
  inbuf_more _ _ _ := rfl
  more_more _ _ _ _ := rfl
  done_more _ _ _ _ _ _ := rfl
  code_done fctx e _ s rest := (bodyLine_spec conf fctx e s rest).1
  inbuf_done fctx e _ s rest := (bodyLine_spec conf fctx e s rest).2.1
  done_append fctx e _ s rest ls' := (bodyLine_spec conf fctx e s rest).2.2 (rest ++ ls')

/-- The fetcher in its body state. -/
def Waiting (fctx : Ctx) (_ : Env) : Prop := fctx.state = .body

theorem body_loops (conf : Conf) (pton : List Char → Option (List Char)) :
    Loops (state conf pton) Waiting eatNone (bodyEnds conf) where
  state := by
    intro fctx e ls hS hwhole
    have hstate : state conf pton fctx { e with inbuf := ls }
        = stateBody conf fctx { e with inbuf := ls } := by
      rw [state, show fctx.state = .body from hS]
    rw [hstate]
    cases ls with
    | nil => rfl
    | cons x rest =>
      cases x with
      | broken => exact absurd List.mem_cons_self hwhole
      | line s stale =>
        show stateBody conf fctx { e with inbuf := .line s stale :: rest }
          = bodyLine conf fctx e s rest
        unfold bodyLine stateBody
        rw [imapGetln_untagged, imapGetln_untagged]
  more hS _ := hS

/-! ## A message on the stream -/

/-- A line of text: it has no NUL, CR or LF. -/
structure Clean (s : List Char) : Prop where
  nul : '\x00' ∉ s
  cr : '\r' ∉ s
  lf : '\n' ∉ s

theorem Clean.append {s t : List Char} (hs : Clean s) (ht : Clean t) : Clean (s ++ t) :=
  ⟨fun h => (List.mem_append.mp h).elim hs.nul ht.nul,
    fun h => (List.mem_append.mp h).elim hs.cr ht.cr,
    fun h => (List.mem_append.mp h).elim hs.lf ht.lf⟩

theorem Clean.no_crlf {s : List Char} (h : Clean s) : ¬ ioCrlf <:+: s :=
  fun hin => h.cr (hin.mem (by decide))

/-- The line with its end can be read. -/
def Short (s : List Char) : Prop := s.length + ioCrlf.length ≤ ioMaxlinelen

/-- The line is one that `imap_state_body` accepts, and announces `n` bytes. -/
structure Announces (line : List Char) (n : ℕ) : Prop where
  tag : imapTag line = .none
  fetch : ∃ i, sscanf fetchLine line = [i]
  size : ∃ ptr, strstr bodyLiteral line = some ptr ∧ sscanf bodySize ptr = [n]
  clean : Clean line
  short : Short line

/-- The bytes of a message whose lines are `lines`, and `last` the last one without CRLF. -/
def literal (lines : List (List Char)) (last : List Char) : List Char := joined ioCrlf lines last

/-- What the server sends: the announcement, the message, the rest of the line that the message
ends in, and what it sends next. -/
def response (header : List Char) (lines : List (List Char)) (last tail more : List Char) :
    List Char :=
  joined ioCrlf (header :: (lines ++ [last ++ tail])) more

theorem length_literal (lines : List (List Char)) (last : List Char) :
    (literal lines last).length = (text lines).length + lines.length + last.length := by
  induction lines with
  | nil => simp [literal, text]
  | cons l lines ih =>
    have htext : (text (l :: lines)).length = l.length + 1 + (text lines).length := by
      simp [text]
      omega
    have hcrlf : ioCrlf.length = 2 := rfl
    rw [literal, joined_cons, List.length_append, List.length_append, hcrlf,
      show (joined ioCrlf lines last).length = _ from ih, htext, List.length_cons]
    omega

/-- The fetcher when `imap_state_body` has opened the mail. -/
def opened (fctx : Ctx) (uid : ℕ) : Ctx :=
  { fctx with
    state := .line
    mail := { fctx.mail with data := [], auxdata := some ⟨uid⟩ } }

/-- The environment when `imap_state_body` has opened a mail of `n` bytes. -/
def openedEnv (conf : Conf) (e : Env) (wanted : List ℕ) (n : ℕ) : Env :=
  { e with
    fault := false
    data := { e.data with
      wanted := wanted
      size := n
      lines := 0
      flushing := decide (conf.maxSize < n) } }

theorem bodyLine_announces {conf : Conf} {header : List Char} {n uid : ℕ} {wanted : List ℕ}
    (h : Announces header n) (hfault : e.fault = false) (hwanted : e.data.wanted = uid :: wanted)
    (rest : List Received) :
    bodyLine conf fctx e header rest =
      (.again, opened fctx uid, { openedEnv conf e wanted n with inbuf := rest }) := by
  obtain ⟨i, hfetch⟩ := h.fetch
  obtain ⟨ptr, hptr, hsize⟩ := h.size
  rw [bodyLine, stateBody, imapGetln_untagged, h.tag]
  simp only [hfetch, hptr, hsize, hwanted, hfault, Bool.false_eq_true, if_false]
  rfl

/-- `imap_state_body` takes the announcement and leaves the rest. -/
theorem serve_header (conf : Conf) (pton : List Char → Option (List Char))
    (stale : ℕ → List Char) {header : List Char} {n uid : ℕ} {wanted : List ℕ}
    (h : Announces header n) (hstate : fctx.state = .body) (hfault : e.fault = false)
    (hwanted : e.data.wanted = uid :: wanted) {link : Link} (hlive : link.Live ioCrlf)
    (chunks : List (List Char)) {rest : List Char}
    (hstream : link.io.rd.contents ++ chunks.flatten = header ++ ioCrlf ++ rest) :
    ∃ link' coming, serve (state conf pton) stale fctx e link chunks
        = some ⟨.again, opened fctx uid, { openedEnv conf e wanted n with inbuf := [] }, link',
          coming⟩ ∧
      link'.Live ioCrlf ∧ link'.io.rd.contents ++ coming.flatten = rest := by
  have heol : Io.Eol ioCrlf := Or.inr rfl
  have hpiece : ∀ l ∈ [header], ¬ ioCrlf <:+: l ∧ l.length + ioCrlf.length ≤ ioMaxlinelen := by
    intro l hl
    rw [List.mem_singleton.mp hl]
    exact ⟨h.clean.no_crlf, h.short⟩
  have hjoined : header ++ ioCrlf ++ rest = joined ioCrlf [header] rest := by
    rw [joined_cons, joined_nil]
  rw [hjoined] at hstream
  have hloop : loop eatNone (receive stale link.count ([header] ++ linesOf heol rest))
      ((bodyEnds conf).get fctx e)
      = ((), some (header, receive stale (link.count + 1) (linesOf heol rest))) := by
    rw [List.singleton_append, receive, cstr_of_not_mem h.clean.nul]
    rfl
  have hdone : (bodyEnds conf).done fctx e () header
      (receive stale (link.count + 1) (linesOf heol rest)) = _ :=
    bodyLine_announces h hfault hwanted _
  obtain ⟨link', coming, hserve, hlive', hleft⟩ :=
    (body_loops conf pton).serve_done heol hstate hlive chunks hstream hpiece hloop
  rw [hdone] at hserve
  exact ⟨link', coming, hserve, hlive', hleft⟩

/-- What the line loop has made of the lines `ls`. -/
def Progress.add (t : Progress) (ls : List (List Char)) : Progress :=
  { t with data := t.data ++ text ls, lines := t.lines + ls.length }

/-- Lines that fit into what is left of the message are appended. -/
theorem loop_lines (stale : ℕ → List Char) {t : Progress} {ls : List (List Char)}
    (hflush : t.flushing = false) (hclean : ∀ l ∈ ls, Clean l)
    (hsize : t.data.length + t.lines + (literal ls []).length ≤ t.size) (n : ℕ)
    (more : List (List Char)) :
    loop eatLine (receive stale n (ls ++ more)) t =
      loop eatLine (receive stale (n + ls.length) more) (t.add ls) := by
  induction ls generalizing t n with
  | nil => simp [Progress.add, text]
  | cons l ls ih =>
    have hlen := length_literal (l :: ls) []
    have hlen' := length_literal ls []
    have htext : (text (l :: ls)).length = l.length + 1 + (text ls).length := by
      simp [text]
      omega
    rw [List.length_cons] at hlen
    have heat : eatLine t l = some (t.add [l]) := by
      rw [eatLine, if_neg (by simp [hflush]), if_neg (by omega), Progress.add]
      simp [text]
    have hadd : (t.add [l]).add ls = t.add (l :: ls) := by
      simp [Progress.add, text]
      omega
    have hfit : (t.add [l]).data.length + (t.add [l]).lines + (literal ls []).length
        ≤ (t.add [l]).size := by
      simp only [Progress.add, List.length_append, List.length_singleton]
      simp only [text, List.map_cons, List.map_nil, List.flatten_cons, List.flatten_nil,
        List.append_nil, List.length_append, List.length_singleton]
      omega
    rw [List.cons_append, receive, loop,
      cstr_of_not_mem (hclean l List.mem_cons_self).nul, heat]
    simp only []
    rw [ih (t := t.add [l]) hflush (fun x hx => hclean x (List.mem_cons_of_mem l hx)) hfit (n + 1),
      hadd, List.length_cons]
    congr 2
    omega

/-! ## Messages that fit -/

/-- The closing line is longer than the part of the message it carries, and ends with a closing
bracket. -/
def Closes (last tail : List Char) : Prop :=
  last.length < (last ++ tail).length ∧ (last ++ tail).getLast? = some ')'

instance (last tail : List Char) : Decidable (Closes last tail) :=
  inferInstanceAs (Decidable (_ ∧ _))

/-- The message has been taken off the stream: what follows its last line is left; if that line
closes the reply, the mail has the bytes of the message, with CRLF turned into LF, and
otherwise the reply is invalid. -/
def TakenOff (lines : List (List Char)) (last tail more : List Char)
    (r : Option (Served FetchImapData History State FetchImapMail)) : Prop :=
  ∃ s, r = some s ∧ s.link.io.rd.contents ++ s.coming.flatten = more ∧
    if Closes last tail then
      s.code = .again ∧ s.fctx.state = .mail ∧ s.fctx.mail.data = text lines ++ last
    else s.code = .error

/-- What the code asks of the closing line: it ends with a closing bracket behind the message; or
the message itself ends there, in a line that is neither empty nor ends with one. -/
def Judged (last tail : List Char) : Prop :=
  tail.getLast? = some ')' ∨ (tail = [] ∧ last ≠ [] ∧ last.getLast? ≠ some ')')

theorem closes_iff (last tail : List Char) : Closes last tail ↔ tail.getLast? = some ')' := by
  unfold Closes
  rw [List.length_append]
  cases tail with
  | nil => simp
  | cons c tail =>
    rw [List.getLast?_append, List.length_cons]
    have hsome : (c :: tail).getLast?.isSome := by simp
    obtain ⟨d, hd⟩ := Option.isSome_iff_exists.mp hsome
    rw [hd, Option.some_or]
    constructor
    · exact fun h => h.2
    · exact fun h => ⟨by omega, h⟩

/-- The closing line is taken. -/
theorem lastLine_closes (fctx : Ctx) {m : Mail FetchImapMail} {last tail : List Char}
    (hleft : e.data.size - (m.size + e.data.lines) = last.length) (hfault : e.fault = false)
    (h : Closes last tail) :
    (lastLine fctx (last ++ tail) m e).1 = .again ∧
      (lastLine fctx (last ++ tail) m e).2.1.state = .mail ∧
      (lastLine fctx (last ++ tail) m e).2.1.mail.data = m.data ++ last := by
  rw [lastLine, h.2]
  simp only [hleft, ne_eq, not_true_eq_false, false_and, if_false, hfault, Bool.false_eq_true]
  by_cases hnil : last.length = 0
  · rw [if_pos hnil, List.eq_nil_of_length_eq_zero hnil, List.append_nil]
    exact ⟨rfl, rfl, rfl⟩
  · rw [if_neg hnil, List.append_assoc, List.take_left]
    exact ⟨rfl, rfl, rfl⟩

/-- The closing line is an error only when it is the end of the message. -/
theorem lastLine_error_iff {m : Mail FetchImapMail} {last tail : List Char}
    (hleft : e.data.size - (m.size + e.data.lines) = last.length) (hfault : e.fault = false) :
    (lastLine fctx (last ++ tail) m e).1 = .error ↔
      tail = [] ∧ last ≠ [] ∧ last.getLast? ≠ some ')' := by
  rw [lastLine]
  cases hlast : (last ++ tail).getLast? with
  | none =>
    have hnil := List.append_eq_nil_iff.mp (List.getLast?_eq_none_iff.mp hlast)
    simp [hnil]
  | some c =>
    have hne : last ++ tail ≠ [] := fun hnil => by simp [hnil] at hlast
    simp only [hleft, hfault, Bool.false_eq_true, if_false]
    by_cases hbad : c ≠ ')' ∧ (last ++ tail).length ≤ last.length
    · have htail : tail = [] := by
        have hlen := hbad.2
        rw [List.length_append] at hlen
        exact List.eq_nil_of_length_eq_zero (by omega)
      rw [htail, List.append_nil] at hlast hne
      rw [if_pos hbad, hlast]
      simp [htail, hne, hbad.1]
    · rw [if_neg hbad]
      constructor
      · intro herror
        split at herror <;> cases herror
      · rintro ⟨htail, -, hend⟩
        rw [htail, List.append_nil] at hlast hbad
        refine absurd ⟨fun hc => hend (by rw [hlast, hc]), Nat.le_refl _⟩ hbad

section Served

variable (conf : Conf) (pton : List Char → Option (List Char)) (stale : ℕ → List Char)
  {lines : List (List Char)} {last tail more : List Char} {link : Link}
  {chunks : List (List Char)}

/-- The line state of a message that `imap_state_body` has just opened. -/
structure Started (lines : List (List Char)) (last : List Char) (fctx : Ctx) (e : Env) :
    Prop where
  lining : Lining fctx e
  progress : progress fctx.mail e = ⟨(literal lines last).length, [], 0, false⟩

theorem fit_whole (h : Started lines last fctx e) {ls : List (List Char)} (hpre : ls <+: lines) :
    (progress fctx.mail e).data.length + (progress fctx.mail e).lines + (literal ls []).length
      ≤ (progress fctx.mail e).size := by
  obtain ⟨ls', rfl⟩ := hpre
  rw [h.progress, length_literal, length_literal]
  simp only [text, List.map_append, List.flatten_append, List.length_append, List.length_nil]
  omega

/-- A message whose lines can be read: the loop ends with its closing line, and what follows is
left. -/
theorem serve_message (h : Started lines last fctx e) (hclean : ∀ l ∈ lines, Clean l)
    (hclosing : Clean (last ++ tail)) (hshort : ∀ l ∈ lines ++ [last ++ tail], Short l)
    (hlive : link.Live ioCrlf)
    (hstream : link.io.rd.contents ++ chunks.flatten
      = joined ioCrlf (lines ++ [last ++ tail]) more) :
    ∃ s rest, serve (state conf pton) stale fctx e link chunks = some s ∧
      s.link.io.rd.contents ++ s.coming.flatten = more ∧
      s.code = (lineEnds.done fctx e ((progress fctx.mail e).add lines) (last ++ tail) rest).1 ∧
      s.fctx
        = (lineEnds.done fctx e ((progress fctx.mail e).add lines) (last ++ tail) rest).2.1 := by
  have heol : Io.Eol ioCrlf := Or.inr rfl
  have hpieces : ∀ l ∈ lines ++ [last ++ tail],
      ¬ ioCrlf <:+: l ∧ l.length + ioCrlf.length ≤ ioMaxlinelen := by
    intro l hl
    refine ⟨?_, hshort l hl⟩
    rcases List.mem_append.mp hl with hmem | hmem
    · exact (hclean l hmem).no_crlf
    · rw [List.mem_singleton.mp hmem]
      exact hclosing.no_crlf
  have hleave : eatLine ((progress fctx.mail e).add lines) (last ++ tail) = none := by
    have hlen := length_literal lines last
    rw [h.progress, eatLine, if_neg (by simp [Progress.add]), if_pos]
    simp only [Progress.add, List.nil_append, List.length_append]
    omega
  have hloop : loop eatLine
      (receive stale link.count (lines ++ [last ++ tail] ++ linesOf heol more))
      (lineEnds.get fctx e) = ((progress fctx.mail e).add lines, some (last ++ tail,
        receive stale (link.count + lines.length + 1) (linesOf heol more))) := by
    have hflush : (progress fctx.mail e).flushing = false := by rw [h.progress]
    have hget : lineEnds.get fctx e = progress fctx.mail e := rfl
    rw [List.append_assoc, List.singleton_append, hget,
      loop_lines stale hflush hclean (fit_whole h (List.prefix_refl _)), receive, loop,
      cstr_of_not_mem hclosing.nul, hleave]
  obtain ⟨link', coming, hserve, -, hleft⟩ :=
    (line_loops conf pton).serve_done heol h.lining hlive chunks hstream hpieces hloop
  exact ⟨_, _, hserve, hleft, rfl, rfl⟩

theorem exists_first_long {ls : List (List Char)} (h : ¬ ∀ l ∈ ls, Short l) :
    ∃ a x b, ls = a ++ x :: b ∧ (∀ l ∈ a, Short l) ∧ ¬ Short x := by
  induction ls with
  | nil => exact absurd (fun l hl => absurd hl List.not_mem_nil) h
  | cons l ls ih =>
    by_cases hl : Short l
    · have hls : ¬ ∀ l ∈ ls, Short l := fun hall =>
        h fun y hy => (List.mem_cons.mp hy).elim (fun heq => heq ▸ hl) (hall y)
      obtain ⟨a, x, b, rfl, ha, hx⟩ := ih hls
      exact ⟨l :: a, x, b, rfl,
        fun y hy => (List.mem_cons.mp hy).elim (fun heq => heq ▸ hl) (ha y), hx⟩
    · exact ⟨[], l, ls, rfl, fun y hy => absurd hy List.not_mem_nil, hl⟩

/-- A message with a line that cannot be read: the loop does not get past it. -/
theorem serve_long (h : Started lines last fctx e) (hclean : ∀ l ∈ lines, Clean l)
    (hclosing : Clean (last ++ tail)) (hlong : ¬ ∀ l ∈ lines ++ [last ++ tail], Short l)
    (hlive : link.Live ioCrlf)
    (hstream : link.io.rd.contents ++ chunks.flatten
      = joined ioCrlf (lines ++ [last ++ tail]) more) :
    ∃ s, serve (state conf pton) stale fctx e link chunks = some s ∧
      (s.code = .block ∨ s.code = .error) ∧
      s.link.io.rd.contents ++ s.coming.flatten ≠ more := by
  have heol : Io.Eol ioCrlf := Or.inr rfl
  obtain ⟨a, x, b, hsplit, ha, hx⟩ := exists_first_long hlong
  have hfree : ∀ l ∈ lines ++ [last ++ tail], ¬ ioCrlf <:+: l := by
    intro l hl
    rcases List.mem_append.mp hl with hmem | hmem
    · exact (hclean l hmem).no_crlf
    · rw [List.mem_singleton.mp hmem]
      exact hclosing.no_crlf
  rw [hsplit] at hfree
  -- the lines in front of the first one that is too long are lines of the message
  have hpre : a <+: lines := by
    have hlen := congrArg List.length hsplit
    simp only [List.length_append, List.length_cons, List.length_nil] at hlen
    have hfront : a <+: lines ++ [last ++ tail] := by
      rw [hsplit]
      exact List.prefix_append _ _
    exact List.prefix_of_prefix_length_le hfront (List.prefix_append _ _) (by omega)
  have hcut : (Io.cutter ioCrlf heol).cut (joined ioCrlf (x :: b) more) = none := by
    rw [joined_cons]
    exact cut_terminated_long heol.plain (hfree x (by simp)) (Nat.lt_of_not_le hx) _
  have hnone : linesOf heol (joined ioCrlf (x :: b) more) = [] :=
    congrArg Prod.fst (Cutter.items_none hcut)
  have hall : restOf heol (joined ioCrlf (x :: b) more) = joined ioCrlf (x :: b) more :=
    congrArg Prod.snd (Cutter.items_none hcut)
  obtain ⟨hlines, hrest⟩ := linesOf_joined heol
    (fun l hl => ⟨hfree l (by simp [hl]), ha l hl⟩) (joined ioCrlf (x :: b) more)
  rw [joined_joined, ← hsplit, ← hstream, hnone] at hlines
  rw [joined_joined, ← hsplit, ← hstream, hall] at hrest
  have hloop : loop eatLine (receive stale link.count (a ++ [])) (lineEnds.get fctx e)
      = ((progress fctx.mail e).add a, none) := by
    have hflush : (progress fctx.mail e).flushing = false := by rw [h.progress]
    have hget : lineEnds.get fctx e = progress fctx.mail e := rfl
    rw [hget, loop_lines stale hflush (fun l hl => hclean l (hpre.subset hl)) (fit_whole h hpre)]
    rfl
  have hcall := (line_loops conf pton).state_more h.lining (whole_receive _ _ _) hloop
  rw [← hlines] at hcall
  obtain ⟨s, hserve, hcode, -, -, hleft⟩ :=
    serve_wait heol (line_loops conf pton).reads h.lining hlive chunks hcall
  refine ⟨s, hserve, hcode, fun hmore => ?_⟩
  have hlen := congrArg List.length (hleft.symm.trans hmore)
  have hcrlf : ioCrlf.length = 2 := rfl
  have hle := le_length_joined ioCrlf b more
  rw [hrest, joined_cons, List.length_append, List.length_append, hcrlf] at hlen
  omega

/-- The mail and the environment in which `lastLine` sees the closing line. -/
theorem left_eq (h : Started lines last fctx e) (rest : List Received) :
    (put fctx e ((progress fctx.mail e).add lines) rest).2.data.size
      - ((put fctx e ((progress fctx.mail e).add lines) rest).1.mail.size
        + (put fctx e ((progress fctx.mail e).add lines) rest).2.data.lines) = last.length := by
  have hlen := length_literal lines last
  rw [h.progress]
  show (literal lines last).length - (([] ++ text lines).length + (0 + lines.length)) = _
  rw [List.nil_append]
  omega

section Opened

variable {header : List Char} {uid : ℕ} {wanted : List ℕ}

/-- `imap_state_body` opens the mail, and `imap_state_line` goes on from there. -/
theorem serveAgain_opened {n : ℕ} (hheader : Announces header n) (hstate : fctx.state = .body)
    (hfault : e.fault = false) (hwanted : e.data.wanted = uid :: wanted)
    (hlive : link.Live ioCrlf) {rest : List Char}
    (hstream : link.io.rd.contents ++ chunks.flatten = header ++ ioCrlf ++ rest) (k : ℕ) :
    ∃ link' coming, serveAgain (state conf pton) stale (k + 1) fctx e link chunks
        = serveAgain (state conf pton) stale k (opened fctx uid)
          { openedEnv conf e wanted n with inbuf := [] } link' coming ∧
      link'.Live ioCrlf ∧ link'.io.rd.contents ++ coming.flatten = rest := by
  obtain ⟨link', coming, hserve, hlive', hleft⟩ :=
    serve_header conf pton stale hheader hstate hfault hwanted hlive chunks hstream
  refine ⟨link', coming, ?_, hlive', hleft⟩
  rw [serveAgain, hserve]
  rfl

theorem started_opened (fctx : Ctx) (e : Env) (uid : ℕ) (wanted : List ℕ)
    (hmax : (literal lines last).length ≤ conf.maxSize) :
    Started lines last (opened fctx uid)
      { openedEnv conf e wanted (literal lines last).length with inbuf := [] } := by
  refine ⟨⟨rfl, rfl⟩, ?_⟩
  have hflush : decide (conf.maxSize < (literal lines last).length) = false :=
    decide_eq_false (by omega)
  rw [← hflush]
  rfl

variable (hheader : Announces header (literal lines last).length)
  (hmax : (literal lines last).length ≤ conf.maxSize) (hlines : ∀ l ∈ lines, Clean l)
  (hlast : Clean last) (htail : Clean tail) (hstate : fctx.state = .body)
  (hfault : e.fault = false) (hwanted : e.data.wanted = uid :: wanted)
  (hlive : link.Live ioCrlf)
  (hstream : link.io.rd.contents ++ chunks.flatten = response header lines last tail more)

include hheader hmax hlines hlast htail hstate hfault hwanted hlive hstream

/-- What becomes of a message whose lines are not too long. -/
theorem message_short (hshort : ∀ l ∈ lines ++ [last ++ tail], Short l) :
    ∃ s, serveAgain (state conf pton) stale 1 fctx e link chunks = some s ∧
      s.link.io.rd.contents ++ s.coming.flatten = more ∧
      (Closes last tail →
        s.code = .again ∧ s.fctx.state = .mail ∧ s.fctx.mail.data = text lines ++ last) ∧
      (s.code = .error ↔ tail = [] ∧ last ≠ [] ∧ last.getLast? ≠ some ')') := by
  rw [response, joined_cons] at hstream
  obtain ⟨link', coming, hagain, hlive', hleft⟩ :=
    serveAgain_opened conf pton stale hheader hstate hfault hwanted hlive hstream 0
  have hstart := started_opened conf fctx e uid wanted hmax
  obtain ⟨s, rest, hserved, hmore, hcode, hctx⟩ :=
    serve_message conf pton stale hstart hlines (hlast.append htail) hshort hlive' hleft
  have hsize := left_eq hstart rest
  refine ⟨s, hagain.trans hserved, hmore, fun hcloses => ?_, ?_⟩
  · have htaken := fun ctx => lastLine_closes ctx hsize rfl hcloses
    rw [hcode, hctx]
    refine ⟨(htaken _).1, (htaken _).2.1, (htaken _).2.2.trans ?_⟩
    show [] ++ text lines ++ last = _
    rw [List.nil_append]
  · rw [hcode]
    exact lastLine_error_iff hsize rfl

/-- What becomes of a message with a line that is too long. -/
theorem message_long (hlong : ¬ ∀ l ∈ lines ++ [last ++ tail], Short l) :
    ∃ s, serveAgain (state conf pton) stale 1 fctx e link chunks = some s ∧
      s.link.io.rd.contents ++ s.coming.flatten ≠ more := by
  rw [response, joined_cons] at hstream
  obtain ⟨link', coming, hagain, hlive', hleft⟩ :=
    serveAgain_opened conf pton stale hheader hstate hfault hwanted hlive hstream 0
  have hstart := started_opened conf fctx e uid wanted hmax
  obtain ⟨s, hserved, -, hmore⟩ :=
    serve_long conf pton stale hstart hlines (hlast.append htail) hlong hlive' hleft
  exact ⟨s, hagain.trans hserved, hmore⟩

/-- A message is taken off the stream as it should be if and only if its lines are not too long
and what follows it on its last line ends with a closing bracket, or nothing follows it there,
and it does not itself end with one or with CRLF. -/
theorem literal_framed_iff :
    TakenOff lines last tail more (serveAgain (state conf pton) stale 1 fctx e link chunks) ↔
      (∀ l ∈ lines ++ [last ++ tail], Short l) ∧ Judged last tail := by
  by_cases hshort : ∀ l ∈ lines ++ [last ++ tail], Short l
  · obtain ⟨s, hserved, hmore, hclosed, herror⟩ :=
      message_short conf pton stale hheader hmax hlines hlast htail hstate hfault hwanted hlive
        hstream hshort
    constructor
    · rintro ⟨s', hs', -, hresult⟩
      obtain rfl : s = s' := Option.some.inj (hserved.symm.trans hs')
      refine ⟨hshort, ?_⟩
      by_cases hcloses : Closes last tail
      · exact Or.inl ((closes_iff last tail).mp hcloses)
      · rw [if_neg hcloses] at hresult
        exact Or.inr (herror.mp hresult)
    · rintro ⟨-, hjudged⟩
      refine ⟨s, hserved, hmore, ?_⟩
      by_cases hcloses : Closes last tail
      · rw [if_pos hcloses]
        exact hclosed hcloses
      · rw [if_neg hcloses]
        rcases hjudged with hend | hend
        · exact absurd ((closes_iff last tail).mpr hend) hcloses
        · exact herror.mpr hend
  · obtain ⟨s, hserved, hmore⟩ :=
      message_long conf pton stale hheader hmax hlines hlast htail hstate hfault hwanted hlive
        hstream hshort
    constructor
    · rintro ⟨s', hs', hmore', -⟩
      obtain rfl : s = s' := Option.some.inj (hserved.symm.trans hs')
      exact absurd hmore' hmore
    · rintro ⟨hall, -⟩
      exact absurd hall hshort

end Opened

/-- `* 1 FETCH (BODY[] {3}`. -/
def threeBytes : List Char :=
  ['*', ' ', '1', ' ', 'F', 'E', 'T', 'C', 'H', ' ', '(', 'B', 'O', 'D', 'Y', '[', ']', ' ', '{', '3',
    '}']

theorem announces_threeBytes : Announces threeBytes 3 where
  tag := by decide
  fetch := ⟨1, by decide⟩
  size := ⟨threeBytes.drop 11, by decide, by decide⟩
  clean := ⟨by decide, by decide, by decide⟩
  short := by
    rw [Short]
    decide

theorem literal_framed_one :
    TakenOff [['a']] [] [')'] ['x']
      (serveAgain (state {} fun _ => none) (fun _ => []) 1 { state := .body }
        { data := { wanted := [7] }, hist := {} } Link.fresh
        [threeBytes ++ ['\r'], ['\n', 'a', '\r', '\n', ')'], ['\r', '\n', 'x']]) :=
  (literal_framed_iff {} (fun _ => none) (fun _ => []) announces_threeBytes (by decide)
    (fun l hl => by
      rw [List.mem_singleton.mp hl]
      exact ⟨by decide, by decide, by decide⟩)
    ⟨by decide, by decide, by decide⟩ ⟨by decide, by decide, by decide⟩ rfl rfl rfl
    Link.fresh_live rfl).mpr
    ⟨fun l hl => by
      rcases List.mem_cons.mp hl with rfl | hl
      · rw [Short]
        decide
      · rw [List.mem_singleton.mp hl, Short]
        decide,
      Or.inl rfl⟩

/-- A closing line without a bracket at its end is taken. -/
theorem bracket_not_needed :
    ¬ TakenOff [['a']] [] ['F', 'L', 'A', 'G', 'S'] ['x']
      (serveAgain (state {} fun _ => none) (fun _ => []) 1 { state := .body }
        { data := { wanted := [7] }, hist := {} } Link.fresh
        [threeBytes ++ ['\r', '\n', 'a', '\r', '\n', 'F', 'L', 'A', 'G', 'S', '\r', '\n', 'x']]) := by
  rintro ⟨s', hs', -, hresult⟩
  obtain ⟨s, hs, -, -, herror⟩ :=
    message_short (e := { data := { wanted := [7] }, hist := {} }) {} (fun _ => none)
      (fun _ => []) announces_threeBytes (by decide)
      (fun l hl => by
        rw [List.mem_singleton.mp hl]
        exact ⟨by decide, by decide, by decide⟩)
      ⟨by decide, by decide, by decide⟩ ⟨by decide, by decide, by decide⟩
      (rfl : ({ state := .body } : Ctx).state = .body) rfl rfl Link.fresh_live
      (show Link.fresh.io.rd.contents ++
          [threeBytes ++
            ['\r', '\n', 'a', '\r', '\n', 'F', 'L', 'A', 'G', 'S', '\r', '\n', 'x']].flatten
        = response threeBytes [['a']] [] ['F', 'L', 'A', 'G', 'S'] ['x'] from rfl)
      (fun l hl => by
        rcases List.mem_cons.mp hl with rfl | hl
        · rw [Short]
          decide
        · rw [List.mem_singleton.mp hl, Short]
          decide)
  obtain rfl : s = s' := Option.some.inj (hs.symm.trans hs')
  rw [if_neg (by decide)] at hresult
  exact absurd (herror.mp hresult).1 (by decide)

/-! ## Messages that are too large -/

theorem loop_flushing {t : Progress} (hflush : t.flushing = true) {ls : List Received}
    (hwhole : Whole ls) : loop eatLine ls t = (t, none) := by
  induction ls with
  | nil => rfl
  | cons x ls ih =>
    cases x with
    | broken => exact absurd List.mem_cons_self hwhole
    | line s stale =>
      rw [loop, eatLine, if_pos hflush]
      exact ih fun hmem => hwhole (List.mem_cons_of_mem _ hmem)

/-- A message that is larger than the maximum size is taken off the stream, and the reply
behind it is read: the mail is handed out, and is too large for `fetch_enqueue` too. -/
def Reported (max : ℕ) (more : List Char)
    (r : Option (Served FetchImapData History State FetchImapMail)) : Prop :=
  ∃ s, r = some s ∧ s.code = .mail ∧ s.link.io.rd.contents ++ s.coming.flatten = more ∧
    max < s.fctx.mail.size

/-- The line state has thrown away all lines there are and waits for more of them. -/
def Stuck (r : Option (Served FetchImapData History State FetchImapMail)) : Prop :=
  ∃ s, r = some s ∧ (s.code = .block ∨ s.code = .error) ∧ s.fctx.state = .line ∧
    s.fctx.mail.data = []

/-- Whatever the server sends, and in whatever chunks, the line state of a message that is
announced to be larger than the maximum size does not end. -/
theorem oversize_waits {header : List Char} {n uid : ℕ} {wanted : List ℕ}
    (hheader : Announces header n) (hbig : conf.maxSize < n) (hstate : fctx.state = .body)
    (hfault : e.fault = false) (hwanted : e.data.wanted = uid :: wanted)
    (hlive : link.Live ioCrlf) {rest : List Char}
    (hstream : link.io.rd.contents ++ chunks.flatten = header ++ ioCrlf ++ rest) :
    Stuck (serveAgain (state conf pton) stale 2 fctx e link chunks) := by
  obtain ⟨link', coming, hagain, hlive', -⟩ :=
    serveAgain_opened conf pton stale hheader hstate hfault hwanted hlive hstream 1
  have heol : Io.Eol ioCrlf := Or.inr rfl
  have hlining : Lining (opened fctx uid) { openedEnv conf e wanted n with inbuf := [] } :=
    ⟨rfl, rfl⟩
  have hloop := loop_flushing (t := progress (opened fctx uid).mail (openedEnv conf e wanted n))
    (decide_eq_true hbig) (whole_receive stale link'.count
      (linesOf heol (link'.io.rd.contents ++ coming.flatten)))
  have hcall := (line_loops conf pton).state_more hlining (whole_receive _ _ _) hloop
  obtain ⟨s, hserved, hcode, hctx, -⟩ :=
    serve_wait heol (line_loops conf pton).reads hlining hlive' coming hcall
  refine ⟨s, ?_, hcode, by rw [hctx]; rfl, by rw [hctx]; rfl⟩
  rw [hagain, serveAgain, hserved]
  rcases hcode with h | h <;> simp [h]

theorem Stuck.not_reported {r : Option (Served FetchImapData History State FetchImapMail)}
    (h : Stuck r) (max : ℕ) (more : List Char) : ¬ Reported max more r := by
  rintro ⟨s', hs', hmail, -⟩
  obtain ⟨s, hs, hcode, -⟩ := h
  obtain rfl : s = s' := Option.some.inj (hs.symm.trans hs')
  rcases hcode with h | h <;> cases h.symm.trans hmail

/-- A message that is announced to be larger than the maximum size is never reported. -/
theorem oversize_stuck {header : List Char} {n uid : ℕ} {wanted : List ℕ}
    (hheader : Announces header n) (hbig : conf.maxSize < n) (hstate : fctx.state = .body)
    (hfault : e.fault = false) (hwanted : e.data.wanted = uid :: wanted)
    (hlive : link.Live ioCrlf) (content tail reply more : List Char)
    (hstream : link.io.rd.contents ++ chunks.flatten
      = header ++ ioCrlf ++ (content ++ tail ++ ioCrlf ++ reply ++ ioCrlf ++ more)) :
    ¬ Reported conf.maxSize more (serveAgain (state conf pton) stale 2 fctx e link chunks) ∧
      Stuck (serveAgain (state conf pton) stale 2 fctx e link chunks) := by
  have hstuck := oversize_waits conf pton stale hheader hbig hstate hfault hwanted hlive hstream
  exact ⟨hstuck.not_reported conf.maxSize more, hstuck⟩

end Served

theorem oversize_stuck_two :
    ¬ Reported 2 ['x'] (serveAgain (state { maxSize := 2 } fun _ => none) (fun _ => []) 2
        { state := .body } { data := { wanted := [7] }, hist := {} } Link.fresh
        [threeBytes ++ ioCrlf ++ ['a', '\r', '\n', ')', '\r', '\n'],
          ['5', ' ', 'O', 'K', '\r', '\n', 'x']]) ∧
      Stuck (serveAgain (state { maxSize := 2 } fun _ => none) (fun _ => []) 2
        { state := .body } { data := { wanted := [7] }, hist := {} } Link.fresh
        [threeBytes ++ ioCrlf ++ ['a', '\r', '\n', ')', '\r', '\n'],
          ['5', ' ', 'O', 'K', '\r', '\n', 'x']]) :=
  oversize_stuck { maxSize := 2 } (fun _ => none) (fun _ => []) announces_threeBytes (by decide)
    rfl rfl rfl Link.fresh_live ['a', '\r', '\n'] [')'] ['5', ' ', 'O', 'K'] ['x'] rfl

/-- A message of three bytes, where two are the most, is not reported. -/
theorem oversize_lost :
    ¬ Reported 2 [] (serveAgain (state { maxSize := 2 } fun _ => none) (fun _ => []) 2
      { state := .body } { data := { wanted := [7], tag := 5 }, hist := {} } Link.fresh
      [threeBytes ++ ioCrlf ++ ['a', '\r', '\n', ')', '\r', '\n', '5', ' ', 'O', 'K', '\r', '\n']]) :=
  (oversize_waits { maxSize := 2 } (fun _ => none) (fun _ => []) announces_threeBytes (by decide)
    rfl rfl rfl Link.fresh_live
    (show Link.fresh.io.rd.contents ++ _ = threeBytes ++ ioCrlf ++
      ['a', '\r', '\n', ')', '\r', '\n', '5', ' ', 'O', 'K', '\r', '\n'] from rfl)).not_reported 2 []

end Fdm.Imap
