import Fdm.Header
import Fdm.Mbox.Rewrite

/-!
# Delivering to an mbox

What `deliver_mbox_deliver` appends to an mbox without compression when none of its calls
fails, and how the mbox is fetched afterwards, one mail after the other.
-/

namespace Fdm.Mbox

open Fdm.Fetch Lib.Lines

/-! ## Writing -/

/-- A line of a mail behind the first one, with a `>` in front when it looks like a `From `
line. -/
def quote (l : List Char) : List Char :=
  if Mail.fromPrefix <+: l.dropWhile (· = '>') then '>' :: l else l

/-- The lines of a mail as they are written. -/
def quoteLines : List (List Char) → List (List Char)
  | [] => []
  | l :: ls => l :: ls.map quote

/-- What is written behind the mail, so that a blank line follows it. -/
def closing (data : List Char) : List Char :=
  if data.getLast? = some '\n' then ['\n'] else ['\n', '\n']

/-- `deliver_mbox_deliver`: what it appends. The mail is not empty; `none` stands for a run of
`find_address` that has no defined outcome. -/
def deliver {α : Type} (user ctime : List Char) (m : Mail α) : Option (List Char) :=
  (m.makeFrom user ctime).map fun f =>
    f ++ ['\n'] ++ (quoteLines (lines m.data)).flatten ++ closing m.data

/-- A mail on its way to an mbox: its bytes, the user it is delivered as, and the time. -/
structure Delivery where
  data : List Char
  user : List Char
  ctime : List Char
deriving DecidableEq, Repr

namespace Delivery

/-- The mail as it was enqueued. -/
def mail (d : Delivery) : Mail FetchMboxMail := ({ data := d.data } : Mail FetchMboxMail).withBody

/-- The `From ` line it gets. -/
def fromLine (d : Delivery) : Option (List Char) := d.mail.makeFrom d.user d.ctime

/-- What can be delivered: the mail is not empty, and neither the name of a user nor the time
has a newline in it. -/
structure Proper (d : Delivery) : Prop where
  data : d.data ≠ []
  user : '\n' ∉ d.user
  ctime : '\n' ∉ d.ctime.take 24

end Delivery

/-- What an empty file becomes when mails are appended to it in turn. -/
def deliverAll : List Delivery → Option (List Char)
  | [] => some []
  | d :: ds =>
    (deliver d.user d.ctime d.mail).bind fun entry => (deliverAll ds).map fun rest => entry ++ rest

/-! ## Fetching -/

/-- The fetch loop, when each mail is dequeued before the next one is fetched. The mails are
given as they were queued; `none` when the fetch is aborted, or is not over after the given
number of passes. `rules` makes the decision about a mail. -/
def fetchEach (conf : Conf) (rules : List Char → Decision) :
    ℕ → Loop Env State FetchMboxMail → Option (List (List Char))
  | 0, _ => none
  | n + 1, l =>
    if l.aborted then none
    else
      match l.queue with
      | m :: _ =>
        (fetchEach conf rules n (l.dequeue (fetcher conf) conf 0 m (rules m.data))).map (m.data :: ·)
      | [] => if l.complete then some [] else fetchEach conf rules n (l.pass (fetcher conf) conf)

/-- What a fetch of the mbox `path` with the given bytes hands out. -/
def fetchFile (conf : Conf) (rules : List Char → Decision) (path bytes : List Char) (n : ℕ) :
    Option (List (List Char)) :=
  fetchEach conf rules n (begin conf false [path] fun p => if p = path then some bytes else none)

/-! ## The promise -/

/-- The same text but for a single newline at the end. -/
def SameText (s t : List Char) : Prop := s = t ∨ s ++ ['\n'] = t ∨ s = t ++ ['\n']

instance (s t : List Char) : Decidable (SameText s t) :=
  inferInstanceAs (Decidable (_ ∨ _ ∨ _))

/-- The mails come back from the mbox: as many, in the same order, with the same contents. -/
def RoundTrip (conf : Conf) (rules : List Char → Decision) (path : List Char)
    (ds : List Delivery) : Prop :=
  ∃ bytes n fetched, deliverAll ds = some bytes ∧
    fetchFile conf rules path bytes n = some fetched ∧
    List.Forall₂ SameText fetched (ds.map Delivery.data)

/-! ## When it is kept -/

/-- The text of a mail with its last line completed. -/
def completed (data : List Char) : List Char :=
  if data.getLast? = some '\n' then data else data ++ ['\n']

/-- A line that the fetch takes for a quoted `From ` line, or for a `From ` line. -/
def LooksQuoted (l : List Char) : Prop := Mail.fromPrefix <+: l.dropWhile (· = '>')

instance (l : List Char) : Decidable (LooksQuoted l) :=
  inferInstanceAs (Decidable (_ <+: _))

/-- A mail that comes back from the mbox, when it is the first one there, or a later one. -/
structure Returns (max : ℕ) (first : Bool) (d : Delivery) : Prop where
  sender : d.fromLine ≠ none
  start : ¬ LooksQuoted d.data
  fits : ∀ f, d.fromLine = some f →
    (if first then f.length + 1 else 0) + (completed d.data).length ≤ max
  separator : first = true → ['\n'] ∈ lines (completed d.data).dropLast
  content : first = false → (completed d.data).dropLast ≠ []

/-- Each mail comes back. -/
def AllReturn (max : ℕ) : List Delivery → Prop
  | [] => True
  | d :: ds => Returns max true d ∧ ∀ x ∈ ds, Returns max false x

end Fdm.Mbox
