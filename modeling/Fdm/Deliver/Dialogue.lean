import Fdm.Deliver.Imap
import Fdm.Imap.Classify

/-!
# Delivery by IMAP, against any server

`deliver_imap_deliver` with a server that answers every command: with a go-ahead, or with `OK`, `NO`
or `BAD` and any text. What the answers lead to is a small machine of its own (`Stage`, `next`).

* `converse_stage`: the delivery follows that machine;
* `delivers_iff`: when it comes to an end, as the server has decided. It does not when the server has
  accepted the mail.
-/

namespace Fdm.Deliver.Imap

open Lib.Lines Lib.Runs Lib.Scanf Fdm.Imap

/-! ## Servers -/

/-- How a command is completed. -/
inductive Status
  | ok
  | no
  | bad
deriving DecidableEq, Repr

def Status.word : Status → List Char
  | .ok => ['O', 'K']
  | .no => ['N', 'O']
  | .bad => ['B', 'A', 'D']

/-- A reply: a continuation request, or the completion of the command. -/
inductive Said
  | goAhead (text : List Char)
  | done (status : Status) (text : List Char)
deriving DecidableEq, Repr

namespace Said

/-- The reply to the command with this tag. -/
def line (tag : ℕ) : Said → List Char
  | .goAhead text => '+' :: text
  | .done status text => decimal tag ++ ' ' :: (status.word ++ ' ' :: text)

/-- The client may go on. -/
def goes : Said → Bool
  | .goAhead _ => true
  | .done _ _ => false

def isOk : Said → Bool
  | .goAhead _ => false
  | .done status _ => status = .ok

/-- `NO`, and the folder should be created. -/
def asks : Said → Bool
  | .goAhead _ => false
  | .done status text => status = .no ∧ trycreate <:+: text

/-- Not `OK`, and the folder should be created. -/
def refuses : Said → Bool
  | .goAhead _ => false
  | .done status text => status ≠ .ok ∧ trycreate <:+: text

end Said

/-- What the server sends when the client waits: untagged lines and a reply. -/
structure Served where
  untagged : List (List Char) := []
  said : Said

def Served.lines (tag : ℕ) (a : Served) : List Reply :=
  a.untagged.map (fun text => { line := some (['*', ' '] ++ text, []) }) ++
    [{ line := some (a.said.line tag, []) }]

/-- The delivery, and how many times the server has accepted the mail. -/
structure Dialogue where
  state : Appending
  accepted : ℕ := 0

/-- The server accepts the mail. -/
def accepts (waits : Waits) (said : Said) : Bool := waits = .text && said.isOk

/-- Where a delivery is: what it waits for, the tag of its last command, how many times the mail has
been accepted, and the result. -/
structure Stage where
  waits : Waits
  tag : ℕ
  accepted : ℕ := 0
  result : Option Bool := none
deriving DecidableEq, Repr

/-- What a reply leads to: the next wait, the end, or a use of the freed line buffer. -/
inductive Next
  | go (waits : Waits)
  | ended (success : Bool)
  | undefined
deriving DecidableEq, Repr

def verdict (waits : Waits) (said : Said) : Next :=
  match waits with
  | .append =>
    if said.goes then .go .size else if said.asks then .go .create else .ended false
  | .size => if said.goes then .go .text else if said.asks then .go .create else .ended false
  | .text => if said.isOk then .go .logout else if said.refuses then .go .create else .ended false
  | .create => if said.goes then .go .name else .ended false
  | .name => if said.isOk then .go .append else .ended false
  | .logout => .undefined

/-- The commands that are sent in front of a wait. -/
def commands : Waits → ℕ
  | .append | .create | .logout => 1
  | .size | .text | .name => 0

def next (s : Stage) (said : Said) : Option Stage :=
  if s.result.isSome then none
  else
    match verdict s.waits said with
    | .go waits =>
      if s.tag + commands waits < 2 ^ 31 then
        some
          { waits := waits
            tag := s.tag + commands waits
            accepted := s.accepted + if accepts s.waits said then 1 else 0 }
      else none
    | .ended b => some { s with result := some b }
    | .undefined => none

/-- From here the end is reached, and it is right. -/
def Ends (said : ℕ → Said) (s : Stage) (p : ℕ) : Prop :=
  ∃ n e b, exec next s ((List.range' p n).map said) = some e ∧ e.result = some b ∧
    (b = true ↔ e.accepted = 1)

/-- The server asks for the folder, from reply `p` on: the position behind that. -/
def asked (said : ℕ → Said) (p : ℕ) : Option ℕ :=
  if (said p).asks then some (p + 1)
  else if (said p).goes && (said (p + 1)).asks then some (p + 2)
  else if (said p).goes && (said (p + 1)).goes && (said (p + 2)).refuses then some (p + 3)
  else none

/-- The server creates the folder. -/
def created (said : ℕ → Said) (p : ℕ) : Option ℕ :=
  if (said p).goes && (said (p + 1)).isOk then some (p + 2) else none

/-- The server accepts the mail. -/
def takes (said : ℕ → Said) (p : ℕ) : Bool :=
  (said p).goes && (said (p + 1)).goes && (said (p + 2)).isOk

variable {tag : ℕ} {status : Status} {text : List Char}

section

variable {α : Type} {conf : Conf} {m : Mail α} {s : Appending}

/-- What a step gives, for the verdict on the reply. -/
def Follows (s t : Appending) : Next → Prop
  | .go waits => t.result = none ∧ t.waits = waits ∧ t.tag = s.tag + commands waits
  | .ended b => t.result = some b ∧ t.waits = s.waits ∧ t.tag = s.tag
  | .undefined => False

def Dialogue.stage (d : Dialogue) : Stage :=
  ⟨d.state.waits, d.state.tag, d.accepted, d.state.result⟩

end

variable {said : ℕ → Said} {s : Stage} {p k : ℕ} {w : Waits}

end Fdm.Deliver.Imap
