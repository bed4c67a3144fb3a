import Fdm.Deliver.Lines
import Fdm.Imap.Defs
import Fdm.Lib.Runs

/-!
# Delivery by IMAP

`deliver_imap_deliver` from the first `APPEND` on, one step for each line of the server. The
number of octets that it announces is one more than the text of the mail has in front of the CRLF
that ends the command. Once the server has accepted the text, the line buffer and the name of the
folder are freed, and the answer to `LOGOUT` is read into what was the buffer.
-/

namespace Fdm.Deliver.Imap

open Lib.Lines Lib.Runs Fdm.Imap

/-! ## The code -/

/-- The name of the folder, whether the server has the capability XYZZY, and the tag of the last
command before. -/
structure Conf where
  folder : List Char
  xyzzy : Bool := false
  tag : ℕ := 0

/-- What is written: commands, the name of the folder with the size of the mail behind it, the
text of the mail or the part of it in front of which the connection fails. -/
inductive Put
  | append (tag len : ℕ)
  | size (folder : List Char) (maillen : UInt64)
  | text (bytes : List Char)
  | part (bytes : List Char)
  | create (tag len : ℕ)
  | name (folder : List Char)
  | logout (tag : ℕ)
  | quit
deriving DecidableEq

/-- Where the function waits for the server: for an answer to `APPEND`, to the size, to the text,
to `CREATE`, to the name behind it and to `LOGOUT`. -/
inductive Waits
  | append
  | size
  | text
  | create
  | name
  | logout
deriving DecidableEq, Repr

/-- A delivery: where it waits, the tag of the last command, what has been written, and whether it
was a success once it is over. -/
structure Appending where
  waits : Waits
  tag : ℕ
  sent : List Put
  result : Option Bool := none
deriving DecidableEq

/-- A line of the server with what is left in the line buffer behind it, or none when the
connection fails; and the results of `io_update` while the text is written. -/
structure Reply where
  line : Option (List Char × List Char)
  updates : List Bool := []

/-- The loop of `count_lines`: `*total` and `*body`. -/
def countFrom : Bool → List (List Char) → UInt32 × UInt32 → UInt32 × UInt32
  | _, [], count => count
  | flag, l :: ls, (total, body) =>
    countFrom (flag || l = ['\n']) ls (total + 1, if flag then body + 1 else body)

/-- `count_lines`. -/
def countLines {α : Type} (m : Mail α) : UInt32 × UInt32 := countFrom false (lineLoop m) (0, 0)

/-- `maillen`. -/
def maillen {α : Type} (conf : Conf) (m : Mail α) : UInt64 :=
  if conf.xyzzy then UInt64.ofNat m.size
  else UInt64.ofNat m.size + (countLines m).1.toUInt64 - 1

/-- What is written for a line of the mail. -/
def imapLine (l : List Char) : List Char := bare l ++ ioCrlf

/-- `imap_no`. -/
def imapNo (line : List Char) : Bool := replies ['N', 'O'] line

/-- `"[TRYCREATE]"`. -/
def trycreate : List Char := ['[', 'T', 'R', 'Y', 'C', 'R', 'E', 'A', 'T', 'E', ']']

/-- `imap_putln`, and wait. -/
def put (s : Appending) (p : Put) (waits : Waits) : Appending :=
  { s with sent := s.sent ++ [p], waits := waits }

/-- `goto error`. -/
def failed (s : Appending) : Appending := { s with sent := s.sent ++ [.quit], result := some false }

/-- `retry`: an `APPEND` with a new tag. -/
def retry (conf : Conf) (s : Appending) : Appending :=
  put { s with tag := s.tag + 1 } (.append (s.tag + 1) conf.folder.length) .append

/-- `try_create`: a `CREATE` with a new tag. -/
def tryCreate (conf : Conf) (s : Appending) : Appending :=
  put { s with tag := s.tag + 1 } (.create (s.tag + 1) conf.folder.length) .create

/-- The start of a delivery. -/
def start (conf : Conf) : Appending := retry conf { waits := .append, tag := conf.tag, sent := [] }

/-- What `deliver_imap_waitappend` returns; it ignores what has no tag. -/
inductive Answer
  | ignored
  | continue
  | error
  | own
deriving DecidableEq, Repr

/-- `deliver_imap_waitappend`, for one line. -/
def waitappend (tag : ℕ) (line : List Char) : Answer :=
  match imapTag line with
  | .none => .ignored
  | .continue => .continue
  | .error => .error
  | .num n => if n = tag then .own else .error

/-- The text of the mail. -/
def putText {α : Type} (m : Mail α) (s : Appending) (updates : List Bool) : Appending :=
  match writeLines imapLine (lineLoop m) updates with
  | (bytes, false) => failed { s with sent := s.sent ++ [.part bytes] }
  | (bytes, true) => put s (.text bytes) .text

/-- An answer to `APPEND` or to the size that lets the server go on, or is `NO`. -/
def answered (conf : Conf) (s : Appending) (line stale : List Char) (go : Appending) : Appending :=
  match waitappend s.tag line with
  | .ignored => s
  | .continue => go
  | .error => failed s
  | .own =>
    if imapNo (tagged line stale) ∧ trycreate <:+: tagged line stale then tryCreate conf s
    else failed s

/-- What `deliver_imap_deliver` does with a line of the server. There is no step behind the end, and
none whose outcome C leaves undefined. What is logged is left out. -/
def imapStep {α : Type} (conf : Conf) (m : Mail α) (s : Appending) (reply : Reply) :
    Option Appending :=
  if s.result.isSome then none
  else
    match s.waits, reply.line with
    -- `lbuf` and `folder` were freed in front of `LOGOUT`: its answer is read into the one, and
    -- `goto error` frees both again
    | .logout, _ => none
    | _, none => some (failed s)
    | .append, some (line, stale) =>
      some (answered conf s line stale (put s (.size conf.folder (maillen conf m)) .size))
    | .size, some (line, stale) =>
      some (answered conf s line stale (putText m s reply.updates))
    | .text, some (line, stale) =>
      match waitappend s.tag line with
      | .ignored => some s
      | .continue | .error => some (failed s)
      | .own =>
        if imapOkay (tagged line stale) then
          some (put { s with tag := s.tag + 1 } (.logout (s.tag + 1)) .logout)
        else if trycreate <:+: tagged line stale then some (tryCreate conf s)
        else some (failed s)
    | .create, some (line, _) =>
      match imapParse .continue s.tag line with
      | .ignore => some s
      | .invalid => some (failed s)
      | .ok => some (put s (.name conf.folder) .name)
    | .name, some (line, stale) =>
      match imapParse .tagged s.tag line with
      | .ignore => some s
      | .invalid => some (failed s)
      | .ok => if imapOkay (tagged line stale) then some (retry conf s) else some (failed s)

/-! ## What a server reads -/

/-- A newline for each CRLF. -/
def decodeCrlf : List Char → List Char
  | '\r' :: '\n' :: s => '\n' :: decodeCrlf s
  | c :: s => c :: decodeCrlf s
  | [] => []

/-- The size that is announced is the length of the text up to the CRLF that ends the command, and
the text is the mail. -/
structure Announced {α : Type} (m : Mail α) (size : UInt64) (text : List Char) : Prop where
  length : size.toNat = text.length
  mail : decodeCrlf text = m.data

/-- In every run, what is announced and then sent is the mail. -/
def Announces {α : Type} (conf : Conf) (m : Mail α) : Prop :=
  ∀ rs s, exec (imapStep conf m) (start conf) rs = some s →
    ∀ sent sent' folder size bytes, s.sent = sent ++ .size folder size :: .text bytes :: sent' →
      ∃ text, bytes = text ++ ioCrlf ∧ Announced m size text

/-! ## What is sent -/

/-- The size that is announced, and the text as a whole. -/
def Fits {α : Type} (conf : Conf) (m : Mail α) : Put → Prop
  | .size _ n => n = maillen conf m
  | .text bytes => bytes = ((lineLoop m).map imapLine).flatten
  | _ => True

/-- All that has been sent fits. -/
def Sent {α : Type} (conf : Conf) (m : Mail α) (s : Appending) : Prop := ∀ p ∈ s.sent, Fits conf m p

section

variable {α : Type} {conf : Conf} {m : Mail α} {s : Appending}

theorem Sent.snoc {p : Put} (h : Sent conf m s) (hp : Fits conf m p) :
    ∀ q ∈ s.sent ++ [p], Fits conf m q := by
  intro q hq
  rcases List.mem_append.mp hq with hq | hq
  · exact h q hq
  · rwa [List.mem_singleton.mp hq]

/-- A delivery that fails has sent nothing that does not fit. -/
theorem Sent.failed (h : Sent conf m s) : Sent conf m (failed s) := h.snoc trivial

theorem Sent.retry (h : Sent conf m s) : Sent conf m (retry conf s) := h.snoc trivial

theorem Sent.tryCreate (h : Sent conf m s) : Sent conf m (tryCreate conf s) := h.snoc trivial

/-- The text of the mail is sent as its lines. -/
theorem Sent.putText (h : Sent conf m s) (updates : List Bool) :
    Sent conf m (putText m s updates) := by
  unfold Imap.putText
  cases htext : writeLines imapLine (lineLoop m) updates with
  | mk bytes ok =>
    cases ok with
    | false =>
      apply Sent.failed
      exact h.snoc trivial
    | true =>
      have hall := writeLines_ok (congrArg Prod.snd htext)
      rw [htext] at hall
      exact h.snoc hall

/-- An answer sends what the next state sends. -/
theorem Sent.answered (h : Sent conf m s) {go : Appending} (hgo : Sent conf m go)
    (line stale : List Char) : Sent conf m (answered conf s line stale go) := by
  unfold Imap.answered
  cases waitappend s.tag line with
  | ignored => exact h
  | «continue» => exact hgo
  | error => exact h.failed
  | own =>
    dsimp only
    split_ifs
    · exact h.tryCreate
    · exact h.failed

/-- What a step sends fits. -/
theorem Sent.step {reply : Reply} {t : Appending} (h : Sent conf m s)
    (hstep : imapStep conf m s reply = some t) : Sent conf m t := by
  unfold imapStep at hstep
  split_ifs at hstep
  cases hline : reply.line with
  | none =>
    rw [hline] at hstep
    cases hwaits : s.waits <;> rw [hwaits] at hstep <;> cases hstep <;> exact h.failed
  | some q =>
    obtain ⟨line, stale⟩ := q
    rw [hline] at hstep
    cases hwaits : s.waits with
    | append =>
      rw [hwaits] at hstep
      cases hstep
      have hgo : Sent conf m (put s (.size conf.folder (maillen conf m)) .size) := h.snoc rfl
      exact h.answered hgo line stale
    | size =>
      rw [hwaits] at hstep
      cases hstep
      exact h.answered (h.putText reply.updates) line stale
    | text =>
      rw [hwaits] at hstep
      dsimp only at hstep
      cases hanswer : waitappend s.tag line with
      | ignored =>
        rw [hanswer] at hstep
        cases hstep
        exact h
      | «continue» =>
        rw [hanswer] at hstep
        cases hstep
        exact h.failed
      | error =>
        rw [hanswer] at hstep
        cases hstep
        exact h.failed
      | own =>
        rw [hanswer] at hstep
        dsimp only at hstep
        split_ifs at hstep <;> cases hstep
        · exact h.snoc trivial
        · exact h.tryCreate
        · exact h.failed
    | create =>
      rw [hwaits] at hstep
      dsimp only at hstep
      split at hstep <;> cases hstep
      · exact h
      · exact h.failed
      · exact h.snoc trivial
    | name =>
      rw [hwaits] at hstep
      dsimp only at hstep
      split at hstep
      · cases hstep
        exact h
      · cases hstep
        exact h.failed
      · split_ifs at hstep <;> cases hstep
        · exact h.retry
        · exact h.failed
    | logout =>
      rw [hwaits] at hstep
      cases hstep

/-- What a run sends fits. -/
theorem sent_run {rs : List Reply} (h : exec (imapStep conf m) (start conf) rs = some s) :
    Sent conf m s := by
  have hstart : Sent conf m (start conf) := by
    intro p hp
    rw [List.mem_singleton.mp hp]
    trivial
  exact (reach_of_exec h).invariant hstart fun _ _ _ hs _ hstep => hs.step hstep

/-! ## The sizes -/

theorem countFrom_total (flag : Bool) (ls : List (List Char)) (total body : UInt32) :
    (countFrom flag ls (total, body)).1 = total + UInt32.ofNat ls.length := by
  induction ls generalizing flag total body with
  | nil => simp [countFrom]
  | cons l ls ih =>
    rw [countFrom, ih, List.length_cons, UInt32.ofNat_add, UInt32.add_assoc,
      UInt32.add_comm (UInt32.ofNat ls.length)]
    rfl

/-- The text is longer than the mail by the number of its lines. -/
theorem length_text {ls : List (List Char)} (h : ∀ l ∈ ls, l ≠ []) :
    ((ls.map imapLine).flatten).length = ls.flatten.length + ls.length := by
  induction ls with
  | nil => rfl
  | cons l ls ih =>
    have hlen := bare_length (h l List.mem_cons_self)
    have hrest := ih fun x hx => h x (List.mem_cons_of_mem _ hx)
    have hline : (imapLine l).length = (bare l).length + 2 := List.length_append
    rw [List.map_cons, List.flatten_cons, List.flatten_cons, List.length_append,
      List.length_append, List.length_cons, hrest, hline]
    omega

/-- The size that is announced is not that of the text in front of the last CRLF. -/
theorem maillen_ne (hcapa : conf.xyzzy = false) (hne : m.data ≠ []) {text : List Char}
    (htext : ((lineLoop m).map imapLine).flatten = text ++ ioCrlf) :
    (maillen conf m).toNat ≠ text.length := by
  have hlines : lineLoop m = lines m.data := if_neg hne
  have hlen := length_text fun l hl => ne_nil_of_ruled (ruled_lines m.data) hl
  rw [← hlines, htext, hlines, flatten_lines, List.length_append,
    show ioCrlf.length = 2 from rfl] at hlen
  have hsize : m.data.length = m.size := rfl
  have htotal : (countLines m).1 = UInt32.ofNat (lines m.data).length := by
    rw [countLines, countFrom_total, hlines, UInt32.zero_add]
  rw [maillen, hcapa, if_neg (by simp), htotal, UInt64.toNat_sub, UInt64.toNat_add,
    UInt64.toNat_ofNat', UInt32.toNat_toUInt64, UInt32.toNat_ofNat', UInt64.toNat_one]
  rw [hsize] at hlen
  omega

/-! ## What the text is -/

/-- A newline in the place of a CRLF. -/
theorem decodeCrlf_crlf (x s : List Char) :
    decodeCrlf (x ++ ioCrlf ++ s) = decodeCrlf x ++ '\n' :: decodeCrlf s := by
  induction x using decodeCrlf.induct with
  | case1 t ih =>
    show '\n' :: decodeCrlf (t ++ ioCrlf ++ s) = '\n' :: (decodeCrlf t ++ '\n' :: decodeCrlf s)
    rw [ih]
  | case2 c t hnot ih =>
    have hnot' : ∀ u, c = '\r' → t ++ ioCrlf ++ s = '\n' :: u → False := by
      intro u hc heq
      cases t with
      | nil => cases heq
      | cons c' t' =>
        rw [List.cons_append, List.cons_append] at heq
        exact hnot t' hc (by rw [(List.cons.inj heq).1])
    rw [decodeCrlf, List.cons_append, List.cons_append, List.cons_append, decodeCrlf, ih]
    · exact hnot'
    · exact hnot
  | case3 => rfl

theorem decodeCrlf_line {b : List Char} (hb : '\n' ∉ b) : decodeCrlf b = b := by
  induction b with
  | nil => rfl
  | cons c b ih =>
    rw [decodeCrlf, ih fun hmem => hb (List.mem_cons_of_mem _ hmem)]
    rintro hc t rfl
    simp at hb

theorem decodeCrlf_lines {ls : List (List Char)} (h : ∀ l ∈ ls, '\n' ∉ bare l) :
    decodeCrlf (ls.map imapLine).flatten = (ls.map fun l => bare l ++ ['\n']).flatten := by
  induction ls with
  | nil => rfl
  | cons l ls ih =>
    rw [List.map_cons, List.flatten_cons, imapLine, decodeCrlf_crlf,
      decodeCrlf_line (h l List.mem_cons_self), ih fun x hx => h x (List.mem_cons_of_mem _ hx)]
    simp

/-- The text in front of the last CRLF is not the mail: it has a character less. -/
theorem decodeCrlf_ne (hne : m.data ≠ []) {text : List Char}
    (htext : ((lineLoop m).map imapLine).flatten = text ++ ioCrlf) :
    (decodeCrlf text).length + 1 = m.data.length := by
  have hlines : lineLoop m = lines m.data := if_neg hne
  have hlen := length_newlines (ruled_lines m.data)
  have hdecode : decodeCrlf (text ++ ioCrlf) = decodeCrlf text ++ ['\n'] := by
    have hcrlf := decodeCrlf_crlf text []
    rwa [List.append_nil] at hcrlf
  rw [← hlines, ← decodeCrlf_lines (lineLoop_line m), htext, hdecode, hlines, flatten_lines,
    List.length_append, List.length_singleton] at hlen
  exact hlen

end

/-- In no run is what is announced the size of the text in front of the CRLF that ends the command,
and in none is that text the mail. -/
theorem never_announced {α : Type} (conf : Conf) (m : Mail α) (hcapa : conf.xyzzy = false)
    (hne : m.data ≠ []) (rs : List Reply) (s : Appending)
    (h : exec (imapStep conf m) (start conf) rs = some s) (sent sent' : List Put)
    (folder bytes : List Char) (size : UInt64)
    (hsent : s.sent = sent ++ .size folder size :: .text bytes :: sent') :
    ¬ ∃ text, bytes = text ++ ioCrlf ∧ (size.toNat = text.length ∨ decodeCrlf text = m.data) := by
  rintro ⟨text, rfl, hor⟩
  have hall := sent_run h
  have hsize : size = maillen conf m := hall (.size folder size) (by simp [hsent])
  have htext := hall (.text (text ++ ioCrlf)) (by simp [hsent])
  rcases hor with hlen | hmail
  · exact maillen_ne hcapa hne htext.symm (hsize ▸ hlen)
  · have hlen := decodeCrlf_ne hne htext.symm
    rw [hmail] at hlen
    omega

/-! ## A mail of one line -/

def inbox : Conf := { folder := ['I', 'N', 'B', 'O', 'X'] }

def oneLine : Mail Unit := { data := ['a', '\n'] }

/-- The server wants more twice. -/
def goAheads : List Reply := [{ line := some (['+'], []) }, { line := some (['+'], []) }]

/-- The text has been sent. -/
def sentText : Appending := (exec (imapStep inbox oneLine) (start inbox) goAheads).get (by decide)

/-- A mail of one line is announced with two bytes, and sent with three. -/
theorem never_announced_oneLine :
    ¬ ∃ text, ['a', '\r', '\n'] = text ++ ioCrlf ∧
      ((2 : UInt64).toNat = text.length ∨ decodeCrlf text = oneLine.data) :=
  never_announced inbox oneLine rfl (by decide) goAheads sentText (Option.some_get _).symm
    [.append 1 5] [] inbox.folder _ _ (by decide)

/-- Two octets are announced, and one is sent in front of the CRLF. -/
theorem oneLine_announced :
    ¬ ∀ (conf : Conf) (m : Mail Unit), conf.xyzzy = false → m.data ≠ [] → Announces conf m := by
  intro h
  obtain ⟨text, hbytes, hannounced⟩ := h inbox oneLine rfl (by decide) goAheads sentText
    (Option.some_get _).symm [.append 1 5] [] inbox.folder 2 ['a', '\r', '\n'] (by decide)
  have htext : text = ['a'] := List.append_cancel_right (hbytes.symm : text ++ ioCrlf = ['a'] ++ ioCrlf)
  have hlen := hannounced.length
  rw [htext] at hlen
  exact absurd hlen (by decide)

end Fdm.Deliver.Imap
