import Fdm.Deliver.Lines
import Fdm.Fetch.Dots
import Fdm.Lib.Runs

/-!
# Delivery by SMTP

`deliver_smtp_deliver`: the dialogue with the server, one step for each of its replies, and the
text of the mail. A server gets the mail as it is if its last line has a newline, and without its
last character otherwise.
-/

namespace Fdm.Deliver.Smtp

open Lib.Lines Lib.Runs Lib.Scanf

/-! ## The code -/

/-- `enum deliver_smtp_state`. -/
inductive State
  | connecting
  | helo
  | mailFrom
  | rcptTo
  | data
  | done
  | quit
deriving DecidableEq, Repr

/-- The name of the own host, and `from` and `to`. -/
structure Conf where
  host : List Char
  mailFrom : List Char
  rcptTo : List Char

/-- What `io_pollline2` finds: a line, or none when the connection is closed or fails. While the
text of the mail is written, the results of `io_update`. -/
structure Reply where
  line : Option (List Char)
  updates : List Bool := []

/-- A delivery: the state, what has been written, and whether it was a success once it is over. -/
structure Dialogue where
  state : State := .connecting
  written : List Char := []
  result : Option Bool := none
deriving DecidableEq

/-- `deliver_smtp_code`: none for -1. -/
def deliverSmtpCode (line : List Char) : Option ℕ :=
  let digits := line.takeWhile Char.isDigit
  if digits = [] then none
  else
    match strtonum 999 digits with
    | none => none
    | some n => if n < 100 then none else some n

/-- `io_writeline`. -/
def writeline (d : Dialogue) (line : List Char) : Dialogue :=
  { d with written := d.written ++ line ++ ioCrlf }

/-- `"HELO "`. -/
def heloCommand : List Char := ['H', 'E', 'L', 'O', ' ']

/-- `"MAIL FROM:<"`. -/
def mailCommand : List Char := ['M', 'A', 'I', 'L', ' ', 'F', 'R', 'O', 'M', ':', '<']

/-- `"RCPT TO:<"`. -/
def rcptCommand : List Char := ['R', 'C', 'P', 'T', ' ', 'T', 'O', ':', '<']

/-- `"DATA"`. -/
def dataCommand : List Char := ['D', 'A', 'T', 'A']

/-- `"QUIT"`. -/
def quitCommand : List Char := ['Q', 'U', 'I', 'T']

/-- `goto error`. -/
def failed (d : Dialogue) : Dialogue := { writeline d quitCommand with result := some false }

/-- What is written for a line of the mail. -/
def smtpLine (l : List Char) : List Char :=
  (if 1 < l.length then (if l.head? = some '.' then ['.'] else []) ++ l.take (l.length - 1)
    else []) ++ ioCrlf

/-- The text of the mail in the state `SMTP_DATA`. -/
def writeData {α : Type} (m : Mail α) (d : Dialogue) (updates : List Bool) : Dialogue :=
  match writeLines smtpLine (lineLoop m) updates with
  | (text, false) => failed { d with written := d.written ++ text }
  | (text, true) => { writeline { d with written := d.written ++ text } ['.'] with state := .done }

/-- The body of the loop of `deliver_smtp_deliver`. -/
def smtpStep {α : Type} (conf : Conf) (m : Mail α) (d : Dialogue) (reply : Reply) :
    Option Dialogue :=
  if d.result.isSome then none
  else
    match reply.line with
    | none => some (failed d)
    | some line =>
      let code := deliverSmtpCode line
      match d.state with
      | .connecting =>
        if code ≠ some 220 then some (failed d)
        else some { writeline d (heloCommand ++ conf.host) with state := .helo }
      | .helo =>
        if code ≠ some 250 then some (failed d)
        else some { writeline d (mailCommand ++ conf.mailFrom ++ ['>']) with state := .mailFrom }
      | .mailFrom =>
        if code ≠ some 250 then some (failed d)
        else some { writeline d (rcptCommand ++ conf.rcptTo ++ ['>']) with state := .rcptTo }
      | .rcptTo =>
        if code ≠ some 250 then some (failed d)
        else some { writeline d dataCommand with state := .data }
      | .data => if code ≠ some 354 then some (failed d) else some (writeData m d reply.updates)
      | .done =>
        if code ≠ some 250 then some (failed d)
        else some { writeline d quitCommand with state := .quit }
      | .quit =>
        if code ≠ some 500 ∧ code ≠ some 221 then some (failed d)
        else some { d with result := some true }

/-! ## What a server receives -/

/-- A server reads the text of a mail: it takes one dot away at the start of a line, makes a
newline of each CRLF, and stops behind a lone dot. The result is the mail and what it has not
read; the first argument says whether it is at the start of a line. -/
def receive : Bool → List Char → Option (List Char × List Char)
  | true, '.' :: '\r' :: '\n' :: s => some ([], s)
  | true, '.' :: s => receive false s
  | _, '\r' :: '\n' :: s => (receive true s).map fun (text, rest) => ('\n' :: text, rest)
  | _, c :: s => (receive false s).map fun (text, rest) => (c :: text, rest)
  | _, [] => none

/-- A mail with a newline behind its last line. -/
def ended (data : List Char) : List Char :=
  if data.getLast? = some '\n' then data else data ++ ['\n']

/-- Whenever the text of the mail has been written, the server has received the mail with a
newline behind its last line, up to the lone dot that is written behind the text. -/
def Received {α : Type} (conf : Conf) (m : Mail α) : Prop :=
  ∀ rs d, exec (smtpStep conf m) {} rs = some d → d.state = .data →
    ∀ reply d', smtpStep conf m d reply = some d' → d'.state = .done →
      ∃ text, d'.written = d.written ++ text ∧ ∀ more, receive true (text ++ more) =
        some (ended m.data, more)

/-! ## Reading the text -/

theorem receive_nl (b : Bool) (s : List Char) :
    receive b ('\r' :: '\n' :: s) =
      (receive true s).map fun (text, rest) => ('\n' :: text, rest) := by
  cases b <;> rw [receive]

/-- A character that is not the first of its line. -/
theorem receive_char {c : Char} {s : List Char} (h : ∀ t, c :: s ≠ '\r' :: '\n' :: t) :
    receive false (c :: s) = (receive false s).map fun (text, rest) => (c :: text, rest) := by
  rw [receive]
  · intro t
    simpa using h t
  · nofun
  · nofun

/-- The rest of a line. -/
theorem receive_rest {b : List Char} (hb : '\n' ∉ b) (s : List Char) :
    receive false (b ++ ioCrlf ++ s) =
      (receive true s).map fun (text, rest) => (b ++ '\n' :: text, rest) := by
  induction b with
  | nil => exact receive_nl false s
  | cons c b ih =>
    have hnot : ∀ t, c :: (b ++ ioCrlf ++ s) ≠ '\r' :: '\n' :: t := by
      intro t heq
      cases b with
      | nil => cases heq
      | cons c' b' =>
        -- the character behind `c` would be a newline
        have hc' : c' = '\n' := (List.cons.inj (List.cons.inj heq).2).1
        exact hb (by simp [hc'])
    rw [List.cons_append, List.cons_append, receive_char hnot,
      ih fun hmem => hb (List.mem_cons_of_mem _ hmem), Option.map_map]
    rfl

/-- A line with the dot that is written in front of it. -/
theorem receive_stuff {b : List Char} (hb : '\n' ∉ b) (s : List Char) :
    receive true (Fetch.stuff b ++ ioCrlf ++ s) =
      (receive true s).map fun (text, rest) => (b ++ '\n' :: text, rest) := by
  unfold Fetch.stuff
  by_cases hdot : b.head? = some '.'
  · obtain ⟨b', rfl⟩ : ∃ b', b = '.' :: b' := by
      cases b with
      | nil => cases hdot
      | cons c b' =>
        cases hdot
        exact ⟨b', rfl⟩
    have htake : receive true ('.' :: ('.' :: b' ++ ioCrlf ++ s)) =
        receive false ('.' :: b' ++ ioCrlf ++ s) := by
      rw [List.cons_append, List.cons_append, receive]
      nofun
    rw [if_pos hdot, List.cons_append, List.cons_append, htake, receive_rest hb]
  · rw [if_neg hdot, ← receive_rest hb]
    cases b with
    | nil => exact (receive_nl true s).trans (receive_nl false s).symm
    | cons c b' =>
      have hc : c ≠ '.' := fun heq => hdot (by rw [heq]; rfl)
      by_cases hcr : ∃ t, c :: (b' ++ ioCrlf ++ s) = '\r' :: '\n' :: t
      · obtain ⟨t, ht⟩ := hcr
        rw [List.cons_append, List.cons_append, ht, receive_nl, receive_nl]
      · rw [not_exists] at hcr
        rw [List.cons_append, List.cons_append, receive_char hcr, receive]
        · intro t
          simpa using hcr t
        · simp [hc]
        · simp [hc]

theorem smtpLine_eq (l : List Char) : smtpLine l = Fetch.stuff (bare l) ++ ioCrlf := by
  unfold smtpLine Fetch.stuff bare
  by_cases hlen : 1 < l.length
  · rw [if_pos hlen, if_pos hlen]
    have hhead : (l.take (l.length - 1)).head? = l.head? := by
      rw [List.head?_take, if_neg (by omega)]
    rw [hhead]
    split_ifs <;> rfl
  · rw [if_neg hlen, if_neg hlen]
    rfl

/-- What a server receives of the lines of a mail. -/
theorem receive_lines {ls : List (List Char)} (h : ∀ l ∈ ls, '\n' ∉ bare l) (more : List Char) :
    receive true ((ls.map smtpLine).flatten ++ ['.'] ++ ioCrlf ++ more) =
      some ((ls.map fun l => bare l ++ ['\n']).flatten, more) := by
  induction ls with
  | nil => rfl
  | cons l ls ih =>
    have hsplit : ((l :: ls).map smtpLine).flatten ++ ['.'] ++ ioCrlf ++ more =
        Fetch.stuff (bare l) ++ ioCrlf ++
          ((ls.map smtpLine).flatten ++ ['.'] ++ ioCrlf ++ more) := by
      simp [smtpLine_eq]
    rw [hsplit, receive_stuff (h l List.mem_cons_self),
      ih fun x hx => h x (List.mem_cons_of_mem _ hx)]
    simp

/-! ## When the mail arrives as it is -/

/-- What is received is the mail with its last newline exactly if there was one, or no line. -/
theorem received_iff {α : Type} (m : Mail α) :
    ((lineLoop m).map fun l => bare l ++ ['\n']).flatten = ended m.data ↔
      m.data = [] ∨ m.data.getLast? = some '\n' := by
  unfold lineLoop
  by_cases hnil : m.data = []
  · rw [if_pos hnil, hnil]
    decide
  · rw [if_neg hnil]
    constructor
    · intro h
      right
      by_contra hlast
      have hlen := length_newlines (ruled_lines m.data)
      rw [h, ended, if_neg hlast, flatten_lines, List.length_append, List.length_singleton] at hlen
      omega
    · intro h
      have hlast := h.resolve_left hnil
      rw [newlines_complete (complete_of_getLast hlast), flatten_lines, ended, if_pos hlast]

/-- The text of the mail is behind what was written before. -/
theorem writeData_done {α : Type} {m : Mail α} {d : Dialogue} {updates : List Bool}
    (h : (writeData m d updates).state = .done) (hd : d.state = .data) :
    (writeData m d updates).written =
      d.written ++ (((lineLoop m).map smtpLine).flatten ++ ['.'] ++ ioCrlf) := by
  unfold writeData at h ⊢
  cases htext : writeLines smtpLine (lineLoop m) updates with
  | mk text ok =>
    rw [htext] at h
    cases ok with
    | false =>
      have hstate : d.state = .done := h
      rw [hd] at hstate
      cases hstate
    | true =>
      have hall := writeLines_ok (congrArg Prod.snd htext)
      rw [htext] at hall
      have htext' : text = ((lineLoop m).map smtpLine).flatten := hall
      show d.written ++ text ++ ['.'] ++ ioCrlf = _
      rw [htext']
      simp

/-- A step that ends the text is one of `writeData`. -/
theorem smtpStep_data {α : Type} {conf : Conf} {m : Mail α} {d d' : Dialogue} {reply : Reply}
    (h : smtpStep conf m d reply = some d') (hd : d.state = .data) (hd' : d'.state = .done) :
    d' = writeData m d reply.updates := by
  unfold smtpStep at h
  split_ifs at h
  split at h
  · cases h
    have hstate : d.state = .done := hd'
    rw [hd] at hstate
    cases hstate
  · rw [hd] at h
    dsimp only at h
    split_ifs at h
    · cases h
      have hstate : d.state = .done := hd'
      rw [hd] at hstate
      cases hstate
    · cases h
      rfl

/-- The replies up to the one to `DATA`. -/
def ready : List Reply :=
  [{ line := some ['2', '2', '0'] }, { line := some ['2', '5', '0'] },
   { line := some ['2', '5', '0'] }, { line := some ['2', '5', '0'] }]

/-- The server says where the mail starts. -/
def goAhead : Reply := { line := some ['3', '5', '4'] }

theorem exec_ready {α : Type} (conf : Conf) (m : Mail α) :
    ∃ d, exec (smtpStep conf m) {} ready = some d ∧ d.state = .data ∧ d.result = none :=
  ⟨_, rfl, rfl, rfl⟩

theorem smtpStep_goAhead {α : Type} {conf : Conf} {m : Mail α} {d : Dialogue}
    (hd : d.state = .data) (hresult : d.result = none) :
    smtpStep conf m d goAhead = some (writeData m d []) := by
  have h354 : deliverSmtpCode ['3', '5', '4'] = some 354 := by decide
  rw [smtpStep, hresult, if_neg (by simp), goAhead]
  simp only [h354, hd]
  rfl

theorem writeData_nil {α : Type} (m : Mail α) (d : Dialogue) : (writeData m d []).state = .done := by
  rw [writeData, writeLines_nil]

/-- A server receives a mail, with a newline behind its last line, exactly if there was one. -/
theorem received_iff_newline {α : Type} (conf : Conf) (m : Mail α) :
    Received conf m ↔ m.data = [] ∨ m.data.getLast? = some '\n' := by
  rw [← received_iff]
  constructor
  · intro h
    obtain ⟨d, hexec, hd, hresult⟩ := exec_ready conf m
    have hdone := writeData_nil m d
    obtain ⟨text, hwritten, hreceive⟩ :=
      h ready d hexec hd goAhead _ (smtpStep_goAhead hd hresult) hdone
    rw [writeData_done hdone hd] at hwritten
    have htext := List.append_cancel_left hwritten
    have hmail := hreceive []
    rw [← htext, receive_lines (lineLoop_line m)] at hmail
    exact (Prod.mk.inj (Option.some.inj hmail)).1
  · intro h rs d _ hd reply d' hstep hd'
    have heq := smtpStep_data hstep hd hd'
    subst heq
    refine ⟨_, writeData_done hd' hd, fun more => ?_⟩
    rw [receive_lines (lineLoop_line m), h]

/-- A host that sends a mail. -/
def sender : Conf := { host := ['h'], mailFrom := ['a'], rcptTo := ['b'] }

/-- A mail without a newline behind its last line. -/
def unended : Mail Unit := { data := ['a', '\n', 'b', 'c'] }

/-- It loses its last character. -/
theorem unended_cut : ¬ ∀ (conf : Conf) (m : Mail Unit), m.data ≠ [] → Received conf m := by
  intro h
  obtain ⟨d, hexec, hd, hresult⟩ := exec_ready sender unended
  have hdone := writeData_nil unended d
  obtain ⟨text, hwritten, hreceive⟩ :=
    h sender unended (by decide) ready d hexec hd goAhead _ (smtpStep_goAhead hd hresult) hdone
  rw [writeData_done hdone hd] at hwritten
  rw [← List.append_cancel_left hwritten] at hreceive
  exact absurd (hreceive []) (by decide)

end Fdm.Deliver.Smtp
