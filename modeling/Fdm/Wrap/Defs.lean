import Fdm.Header
import Fdm.Rules.Defs
import Fdm.Lib.Folding

/-!
# Headers and folded lines

The functions that edit the headers of a mail while its folded lines are kept in `m->wrapped`:
`insert_header`, `match_header`, `trim_from` and `fill_wrapped` of `mail.c`, and the add-header
and remove-header actions. `set_wrapped` is `MailData.setWrapped`.

`fnmatch` is the function of the system with `FNM_CASEFOLD`, and `shmResize` says which sizes
`shm_resize` can map.
-/

namespace Fdm.Wrap

open Lib.Lines Lib.Folding

/-- `m->off`, `m->space` and `m->body`. -/
structure Region where
  off : ℕ := 0
  space : ℕ
  body : ℕ := 0
deriving DecidableEq, Repr

/-- `struct mail`; `m->size` is the length of `data`. -/
abbrev Mail : Type := Rules.MailData Region

/-- The part that `find_header`, `find_body` and `trim_from` look at. -/
def view (m : Mail) : Fdm.Mail Unit := { data := m.data, body := m.rest.body }

/-! ## Making space -/

/-- `SIZE_MAX`. -/
def sizeMax : ℕ := 2 ^ 64 - 1

/-- The loop of `mail_resize`, with the checks of `shm_resize`. The first argument bounds its
passes: no size can be doubled more often. -/
def spaceFrom (shmResize : ℕ → Bool) (need : ℕ) : ℕ → ℕ → Option ℕ
  | 0, space => if need < space then some space else none
  | n + 1, space =>
    if need < space then some space
    else if space = 0 ∨ sizeMax / 2 < space ∨ shmResize (2 * space) = false then none
    else spaceFrom shmResize need n (2 * space)

/-- `mail_resize`. `none` is a fatal error, or the loss of the memory of the mail. -/
def mailResize (shmResize : ℕ → Bool) (m : Mail) (size : ℕ) : Option Mail :=
  if sizeMax - m.rest.off < size then none
  else
    (spaceFrom shmResize (m.rest.off + size) 64 m.rest.space).map fun space =>
      { m with rest := { m.rest with space := space } }

/-! ## Inserting a header -/

/-- Where `insert_header` puts a header, and how many newlines follow it; `none` when there is
no header `before`. -/
def insertAt (m : Mail) : Option (List Char) → Option (ℕ × ℕ)
  | some before => ((view m).findHeader before).map fun (off, _) => (off, 1)
  | none =>
    -- without a body the headers are yet to be made, and the separator with them
    if m.rest.body = 0 then some (0, 2) else some (m.rest.body - 1, 1)

/-- `insert_header`, which returns zero when it is true; `hdr` is the formatted text. -/
def insertHeader (shmResize : ℕ → Bool) (m : Mail) (before : Option (List Char))
    (hdr : List Char) : Option (Bool × Mail) :=
  match insertAt m before with
  | none => some (false, m)
  | some (off, newlines) =>
    let text := hdr ++ List.replicate newlines '\n'
    (mailResize shmResize m (m.data.length + text.length)).map fun m =>
      (true, { m with
        data := m.data.take off ++ text ++ m.data.drop off
        rest := { m.rest with body := m.rest.body + text.length } })

/-! ## Folded lines -/

/-- The loop of `fill_wrapped` over the characters from `off` on. -/
def fillFrom (body : ℕ) : ℕ → List Char → List ℕ
  | _, [] => []
  | off, c :: s =>
    if c = '\n' then
      if body ≤ off + 1 then []
      else if s.head?.any isBlank = true then off :: fillFrom body (off + 1) s
      else fillFrom body (off + 1) s
    else fillFrom body (off + 1) s

/-- `fill_wrapped`, which returns the length of the list; `none` is the fatal error. -/
def fillWrapped (m : Mail) : Option Mail :=
  if m.wrapped ≠ [] then none
  else some { m with wrapped := fillFrom m.rest.body 0 m.data, wrapchar := '\x00' }

/-- `ARRAY_FREE` on the list, and no character. -/
def forget (m : Mail) : Mail := { m with wrapped := [], wrapchar := '\x00' }

/-- `trim_from`. -/
def trimFrom (m : Mail) : Mail :=
  let trimmed := (view m).trimFrom
  { m with
    data := trimmed.data
    rest := { m.rest with
      off := m.rest.off + (m.data.length - trimmed.data.length)
      body := trimmed.body } }

/-! ## Deliveries -/

/-- `DELIVER_SUCCESS` and `DELIVER_FAILURE`. -/
inductive DeliverResult
  | success
  | failure
deriving DecidableEq, Repr

/-- `deliver_add_header_deliver`; the header and the value are what `replacestr` gives. -/
def deliverAddHeader (shmResize : ℕ → Bool) (hdr value : Option (List Char)) (m : Mail) :
    Option (DeliverResult × Mail) :=
  match hdr, value with
  | none, _ => some (.failure, m)
  | some [], _ => some (.failure, m)
  | some _, none => some (.failure, m)
  | some hdr, some value =>
    (insertHeader shmResize m none (hdr ++ [':', ' '] ++ value)).bind fun (inserted, m) =>
      if inserted then (fillWrapped (forget m)).map (DeliverResult.success, ·)
      else some (.failure, m)

section

variable (fnmatch : List Char → List Char → Bool)

/-- The pattern matches what stands before the first colon of a line, if there is one. -/
def nameMatches (patt l : List Char) : Bool :=
  l.contains ':' && fnmatch patt (Fdm.Mail.cString (l.takeWhile (· ≠ ':')))

/-- The loop of `match_header` over the lines from `off` on. -/
def matchHeaderFrom (body : ℕ) (patt : List Char) : ℕ → List (List Char) → Option (ℕ × ℕ)
  | _, [] => none
  | off, l :: ls =>
    if body ≤ off then none
    else if nameMatches fnmatch patt l then some (off, l.length)
    else matchHeaderFrom body patt (off + l.length) ls

/-- `match_header`, without the value: where the header starts, and its length. -/
def matchHeader (m : Mail) (patt : List Char) : Option (ℕ × ℕ) :=
  matchHeaderFrom fnmatch m.rest.body patt 0 (lines m.data)

/-- Fix up the wrapped array after `len` bytes at `off` have gone. -/
def fixWrapped (off len : ℕ) (wrapped : List ℕ) : List ℕ :=
  wrapped.filterMap fun wrap =>
    if off + len ≤ wrap then some (wrap - len)
    else if off ≤ wrap then none
    else some wrap

/-- Remove `len` bytes at `off`. -/
def removeAt (off len : ℕ) (m : Mail) : Mail :=
  { m with
    data := m.data.take off ++ m.data.drop (off + len)
    wrapped := fixWrapped off len m.wrapped
    rest := { m.rest with body := m.rest.body - len } }

/-- Remove the headers that a pattern matches. The first argument bounds the passes: each one
removes a byte at least. -/
def removeMatches (patt : List Char) : ℕ → Mail → Mail
  | 0, m => m
  | n + 1, m =>
    match matchHeader fnmatch m patt with
    | none => m
    | some (off, len) => removeMatches patt n (removeAt off len m)

/-- `deliver_remove_header_deliver`; the patterns are what `replacestr` gives, one by one. -/
def deliverRemoveHeader : List (Option (List Char)) → Mail → Option (DeliverResult × Mail)
  | [], m => some (.success, m.setWrapped '\n')
  | none :: _, m => some (.failure, m)
  | some [] :: _, m => some (.failure, m)
  | some patt :: hdrs, m =>
    (fillWrapped (forget m)).bind fun m =>
      let m := m.setWrapped ' '
      deliverRemoveHeader hdrs (removeMatches fnmatch patt m.data.length m)

end

end Fdm.Wrap
