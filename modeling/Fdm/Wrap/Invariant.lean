import Fdm.Wrap.Removal
import Fdm.Lib.Runs
import Mathlib.Data.List.Flatten

/-!
# The list of folded lines

A mail is edited while its folds are newlines or blanks. `text` is what the mail is meant to be:
its bytes with a newline at every fold, changed by each edit in the same way. `Represents` says
how `struct mail` holds it.

* `inv_refill`: to fill the list anew is right while the folds are newlines;
* `bodyOf_insert`, `bodyOf_trim`: the edits keep the offset of the body;
* `represents_of_keeps`: runs in which no edit fills the list while folds are blanks.
-/

namespace Fdm.Wrap

open Lib.Lines Lib.Folding Lib.Runs

/-! ## The edits of the text -/

/-- A mail with the bytes, as `find_body` leaves it. -/
def asMail (text : List Char) : Mail := { data := text, rest := { space := 0, body := bodyOf text } }

/-- The text with a header where `insert_header` puts it. -/
def insertText (before : Option (List Char)) (hdr text : List Char) : List Char :=
  match insertAt (asMail text) before with
  | none => text
  | some (off, newlines) =>
    text.take off ++ (hdr ++ List.replicate newlines '\n') ++ text.drop off

/-- The text without its `From ` line. -/
def trimText (text : List Char) : List Char := (view (asMail text)).trimFrom.data

/-- The text without the headers that match. -/
def removeText (fnmatch : List Char → List Char → Bool) (patts : List (List Char))
    (text : List Char) : List Char :=
  (kept fnmatch patts (fields (headerOf text))).flatten ++ restOf text

/-- The header that add-header makes, if it makes one. -/
def addedHeader : Option (List Char) → Option (List Char) → Option (List Char)
  | some (c :: cs), some value => some ((c :: cs) ++ [':', ' '] ++ value)
  | _, _ => none

/-! ## Runs -/

/-- What `set_wrapped` is called with. -/
inductive Form
  | blank
  | newline
deriving DecidableEq, Repr

def Form.char : Form → Char
  | blank => ' '
  | newline => '\n'

/-- A header without an empty line. -/
def Full (hdr : List Char) : Prop := ['\n'] ∉ lines (hdr ++ ['\n'])

instance (hdr : List Char) : Decidable (Full hdr) := inferInstanceAs (Decidable (_ ∉ _))

/-- The operations on a mail. A header that is inserted has no empty line. -/
inductive Op
  | setWrapped (form : Form)
  | insertHeader (before : Option (List Char)) (hdr : List Char) (h : Full hdr)
  | trimFrom
  | addHeader (hdr value : Option (List Char)) (h : ∀ added ∈ addedHeader hdr value, Full added)
  | removeHeader (hdrs : List (Option (List Char)))

/-- A mail, and the text it stands for. -/
structure Edited where
  mail : Mail
  text : List Char
deriving DecidableEq, Repr

section

variable (fnmatch : List Char → List Char → Bool) (shmResize : ℕ → Bool)

/-- One operation; the list is filled anew after `insert_header` and `trim_from`. -/
def step (s : Edited) : Op → Option Edited
  | .setWrapped form => some { s with mail := s.mail.setWrapped form.char }
  | .insertHeader before hdr _ =>
    (insertHeader shmResize s.mail before hdr).bind fun (_, m) =>
      (fillWrapped (forget m)).map fun m => ⟨m, insertText before hdr s.text⟩
  | .trimFrom =>
    (fillWrapped (forget (trimFrom s.mail))).map fun m => ⟨m, trimText s.text⟩
  | .addHeader hdr value _ =>
    (deliverAddHeader shmResize hdr value s.mail).map fun (_, m) =>
      ⟨m, (addedHeader hdr value).elim s.text fun added => insertText none added s.text⟩
  | .removeHeader hdrs =>
    (deliverRemoveHeader fnmatch hdrs s.mail).map fun (_, m) =>
      ⟨m, removeText fnmatch (handled hdrs) s.text⟩

/-- The folds are not blanks, or there are none. -/
def Folded (m : Mail) : Bool := m.wrapchar ≠ ' ' || m.wrapped = []

/-- No list is filled while folds are blanks. -/
def keeps (s : Edited) : Op → Bool
  | .setWrapped _ => true
  | .insertHeader _ _ _ => Folded s.mail
  | .trimFrom => Folded s.mail
  | .addHeader hdr value _ => addedHeader hdr value = none || Folded s.mail
  | .removeHeader hdrs =>
    handled hdrs = [] || Folded s.mail &&
      ((handled hdrs).length ≤ 1 || (fields (headerOf s.mail.data)).all fun f =>
        folds 0 f = [] || (handled hdrs).any fun patt => hit fnmatch patt f)

end

/-- A mail that was fetched: its bytes in its memory. -/
structure Fetched where
  data : List Char
  off : ℕ := 0
  space : ℕ
  fits : off + data.length < space

/-- The mail after `find_body` and `fill_wrapped`. -/
def Fetched.start (fetched : Fetched) : Edited where
  mail :=
    { data := fetched.data
      wrapped := fillFrom (bodyOf fetched.data) 0 fetched.data
      rest := { off := fetched.off, space := fetched.space, body := bodyOf fetched.data } }
  text := fetched.data

/-! ## The representation -/

/-- How a mail holds a text. -/
structure Represents (m : Mail) (text : List Char) : Prop where
  fits : m.rest.off + m.data.length < m.rest.space
  body_le : m.rest.body ≤ m.data.length
  body : m.rest.body = bodyOf m.data
  ascending : m.wrapped.Pairwise (· < ·)
  below : ∀ w ∈ m.wrapped, w < m.rest.body
  /-- The list has the newlines of the header that fold. -/
  exact : ∀ w, w ∈ m.wrapped ↔
    w + 1 < m.rest.body ∧ text[w]? = some '\n' ∧ (text[w + 1]?).any isBlank = true
  same : m.wrapchar ≠ ' ' → m.data = text
  back : ((m.setWrapped ' ').setWrapped '\n').data = text

/-- The character at the folds. -/
def foldChar (m : Mail) : Char := if m.wrapchar = ' ' then ' ' else '\n'

/-- The invariant of the runs: the header of the text, with the character at its folds. -/
structure Inv (m : Mail) (text : List Char) : Prop where
  fits : m.rest.off + text.length < m.rest.space
  body : m.rest.body = bodyOf text
  wrapped : m.wrapped = folds 0 (headerOf text)
  data : m.data = setFolds (foldChar m) (headerOf text) ++ restOf text

/-- Folding changes characters, and not their number. -/
theorem Inv.length {m : Mail} {text : List Char} (h : Inv m text) :
    m.data.length = text.length := by
  rw [h.data, List.length_append, length_setFolds, ← List.length_append, header_rest]

/-- A mail in its folded form is the text that it stands for. -/
theorem Inv.data_eq {m : Mail} {text : List Char} (h : Inv m text) (hfolded : Folded m = true) :
    m.data = text := by
  have hset : setFolds (foldChar m) (headerOf text) = headerOf text := by
    rw [foldChar]
    split_ifs with hchar
    · have hnil : folds 0 (headerOf text) = [] := by
        simpa [Folded, hchar, h.wrapped] using hfolded
      exact setFolds_of_folds_nil hnil ' '
    · exact setFolds_newline _
  rw [h.data, hset, header_rest]

/-- Changing the form keeps the invariant. -/
theorem Inv.setWrapped {m : Mail} {text : List Char} (h : Inv m text) (form : Form) :
    Inv (m.setWrapped form.char) text := by
  rw [Rules.MailData.setWrapped]
  split_ifs with hchar
  · exact h
  · refine ⟨h.fits, h.body, h.wrapped, ?_⟩
    have hset := foldl_set_folds form.char (foldChar m) [] (headerOf text) (restOf text)
    rw [List.nil_append, List.nil_append, List.length_nil, ← h.data, ← h.wrapped] at hset
    cases form <;> exact hset

/-- With another character at the folds the body stays where it is. -/
theorem bodyOf_setFolds (ch : Char) (hch : ch = ' ' ∨ ch = '\n') (text : List Char) :
    bodyOf (setFolds ch (headerOf text) ++ restOf text) = bodyOf text := by
  rcases hch with rfl | rfl
  · rcases headed text with ⟨hzero, -⟩ | ⟨h, b, hh, rfl⟩
    · have hnil := header_rest text
      rw [headerOf_of_bodyOf hzero, List.nil_append] at hnil
      rw [headerOf_of_bodyOf hzero, setFolds, List.nil_append, hnil]
    · have hunfolded : Header (setFolds ' ' h) := by
        have hline := (hh.headers.unfolded (by decide : ' ' ≠ '\n')).header
        rwa [← hh.headers.toCut.setFolds_flatten, flatten_fields] at hline
      rw [headerOf_append hh, restOf_append hh, bodyOf_append hunfolded, bodyOf_append hh,
        length_setFolds]
  · rw [setFolds_newline, header_rest]

/-- A fold is a blank or a newline. -/
theorem foldChar_mem (m : Mail) : foldChar m = ' ' ∨ foldChar m = '\n' := by
  rw [foldChar]
  split_ifs
  · exact Or.inl rfl
  · exact Or.inr rfl

/-- The folds of the header are the folds of the text that are in front of the body. -/
theorem mem_folds_headerOf (text : List Char) (w : ℕ) :
    w ∈ folds 0 (headerOf text) ↔
      w + 1 < bodyOf text ∧ text[w]? = some '\n' ∧ (text[w + 1]?).any isBlank = true := by
  rcases headed text with ⟨hzero, -⟩ | ⟨h, b, hh, rfl⟩
  · rw [headerOf_of_bodyOf hzero, hzero]
    simp [folds]
  · rw [headerOf_append hh, bodyOf_append hh, mem_folds, Nat.sub_zero]
    constructor
    · rintro ⟨-, hnl, hblank⟩
      have hlt : w < h.length := (List.getElem?_eq_some_iff.mp hnl).1
      obtain ⟨c, hc, -⟩ := (Option.any_eq_true _ _).mp hblank
      have hlt' : w + 1 < h.length := (List.getElem?_eq_some_iff.mp hc).1
      rw [List.getElem?_append_left hlt, List.getElem?_append_left hlt']
      exact ⟨by omega, hnl, hblank⟩
    · rintro ⟨hlt, hnl, hblank⟩
      have hw : w < h.length := by omega
      rw [List.getElem?_append_left hw] at hnl
      rcases Nat.lt_or_ge (w + 1) h.length with hlt' | hge
      · rw [List.getElem?_append_left hlt'] at hblank
        exact ⟨Nat.zero_le w, hnl, hblank⟩
      · -- the separator is not a blank
        rw [List.getElem?_append_right hge, Nat.sub_eq_zero_of_le (by omega)] at hblank
        cases hblank

/-- The invariant says what the mail represents. -/
theorem Inv.represents {m : Mail} {text : List Char} (h : Inv m text) : Represents m text := by
  have hbody : m.rest.body = bodyOf m.data := by
    rw [h.data, bodyOf_setFolds _ (foldChar_mem m), h.body]
  refine ⟨?_, ?_, hbody, ?_, fun w hw => ?_, fun w => ?_, fun hchar => ?_, ?_⟩
  · rw [h.length]
    exact h.fits
  · rw [hbody]
    exact bodyOf_le m.data
  · rw [h.wrapped]
    exact folds_pairwise 0 _
  · rw [h.wrapped, mem_folds_headerOf, ← h.body] at hw
    omega
  · rw [h.wrapped, mem_folds_headerOf, h.body]
  · exact h.data_eq (by simp [Folded, hchar])
  · have hend := (h.setWrapped .blank).setWrapped .newline
    refine hend.data_eq ?_
    rw [Folded, Form.char, Form.char, setWrapped_newline_wrapchar]
    rfl

/-- The list is filled while the folds are newlines. -/
theorem inv_refill {m m' : Mail} {text : List Char} (hdata : m.data = text)
    (hbody : m.rest.body = bodyOf text) (hfits : m.rest.off + text.length < m.rest.space)
    (h : fillWrapped (forget m) = some m') : Inv m' text := by
  obtain rfl := Option.some.inj h
  refine ⟨hfits, hbody, ?_, ?_⟩
  · show fillFrom m.rest.body 0 m.data = _
    rw [hbody, hdata, fillFrom_eq]
  · show m.data = setFolds '\n' (headerOf text) ++ restOf text
    rw [hdata, setFolds_newline, header_rest]

/-- A mail that was just fetched represents its own text. -/
theorem inv_start (fetched : Fetched) : Inv fetched.start.mail fetched.start.text :=
  inv_refill (m := { data := fetched.data, rest := fetched.start.mail.rest }) rfl rfl fetched.fits rfl

/-! ## Inserting a header -/

/-- The doubling ends at a size that is large enough. -/
theorem spaceFrom_spec {shmResize : ℕ → Bool} {need n space space' : ℕ}
    (h : spaceFrom shmResize need n space = some space') : need < space' := by
  induction n generalizing space with
  | zero =>
    rw [spaceFrom] at h
    split_ifs at h with hneed
    exact Option.some.inj h ▸ hneed
  | succ n ih =>
    rw [spaceFrom] at h
    split_ifs at h with hneed
    · exact Option.some.inj h ▸ hneed
    · exact ih h

/-- `mail_resize` changes the size of the block, and nothing else. -/
theorem mailResize_spec {shmResize : ℕ → Bool} {m m' : Mail} {size : ℕ}
    (h : mailResize shmResize m size = some m') :
    ∃ space, m.rest.off + size < space ∧ m' = { m with rest := { m.rest with space := space } } := by
  rw [mailResize] at h
  split_ifs at h
  obtain ⟨space, hspace, rfl⟩ := Option.map_eq_some_iff.mp h
  exact ⟨space, spaceFrom_spec hspace, rfl⟩

/-- A header that is filled in is a header with its newline. -/
theorem header_of_full {hdr : List Char} (h : Full hdr) : Header (hdr ++ ['\n']) := by
  intro l hl
  exact ⟨complete_lines hdr l hl, fun heq => h (heq ▸ hl)⟩

/-- Lines put between the lines of a header. -/
theorem bodyOf_splice {h₁ h₂ t : List Char} (hh₁ : Header h₁) (ht : Header t) (hh₂ : Header h₂)
    (b : List Char) :
    bodyOf (h₁ ++ t ++ (h₂ ++ '\n' :: b)) = bodyOf (h₁ ++ (h₂ ++ '\n' :: b)) + t.length := by
  rw [← List.append_assoc, bodyOf_append ((hh₁.append ht).append hh₂), ← List.append_assoc,
    bodyOf_append (hh₁.append hh₂)]
  simp only [List.length_append]
  omega

/-- `find_header` finds the start of a line in front of the body. -/
theorem split_of_findHeaderFrom {body : ℕ} {hdr l : List Char} {off off' : ℕ}
    {ls : List (List Char)} (h : Fdm.Mail.findHeaderFrom body hdr off ls = some (off', l)) :
    ∃ p q, ls = p ++ l :: q ∧ off' = off + p.flatten.length ∧ off' < body := by
  induction ls generalizing off with
  | nil => cases h
  | cons x ls ih =>
    rw [Fdm.Mail.findHeaderFrom] at h
    split_ifs at h with hbody hfound
    · obtain ⟨rfl, rfl⟩ : off = off' ∧ x = l := by simpa using h
      exact ⟨[], ls, rfl, rfl, by omega⟩
    · obtain ⟨p, q, rfl, rfl, hlt⟩ := ih h
      refine ⟨x :: p, q, rfl, ?_, hlt⟩
      rw [List.flatten_cons, List.length_append]
      omega

/-- Lines that are shorter than a header are the first lines of it. -/
theorem header_split {h b : List Char} (hh : Header h) {p q : List (List Char)}
    (hlines : lines (h ++ '\n' :: b) = p ++ q) (hlen : p.flatten.length ≤ h.length) :
    ∃ h₂, h = p.flatten ++ h₂ ∧ Header p.flatten ∧ Header h₂ := by
  have htext : lines (h ++ '\n' :: b) = lines h ++ lines ('\n' :: b) := hh.lines_text _
  rw [htext] at hlines
  rcases List.append_eq_append_iff.mp hlines with ⟨r, hp, hq⟩ | ⟨r, hp, -⟩
  · -- the lines in front reach to the end of the header at least
    have hnil : r.flatten = [] := by
      have hcount := congrArg (fun ls => ls.flatten.length) hp
      simp only [List.flatten_append, List.length_append, flatten_lines] at hcount
      exact List.eq_nil_of_length_eq_zero (by omega)
    have hflat : p.flatten = h := by
      rw [hp, List.flatten_append, flatten_lines, hnil, List.append_nil]
    refine ⟨[], by rw [hflat, List.append_nil], ?_, header_nil⟩
    rwa [hflat]
  · have hmem : ∀ l ∈ p ++ r, Complete l ∧ l ≠ ['\n'] := fun l hl => hh l (hp ▸ hl)
    have hfront := header_flatten fun l hl => hmem l (List.mem_append_left r hl)
    have hback := header_flatten fun l hl => hmem l (List.mem_append_right p hl)
    refine ⟨r.flatten, ?_, hfront.2, hback.2⟩
    rw [← flatten_lines h, hp, List.flatten_append]

/-- The body behind an inserted header. -/
theorem bodyOf_insert {m : Mail} {before : Option (List Char)} {hdr : List Char} {off newlines : ℕ}
    (hbody : m.rest.body = bodyOf m.data) (hfull : Full hdr)
    (hat : insertAt m before = some (off, newlines)) :
    bodyOf (m.data.take off ++ (hdr ++ List.replicate newlines '\n') ++ m.data.drop off)
      = bodyOf m.data + (hdr ++ List.replicate newlines '\n').length := by
  have hhdr : Header (hdr ++ ['\n']) := header_of_full hfull
  rcases headed m.data with ⟨hzero, -⟩ | ⟨h, b, hh, hdata⟩
  · rw [hzero] at hbody
    cases before with
    | none =>
      rw [insertAt, if_pos hbody] at hat
      obtain ⟨rfl, rfl⟩ : 0 = off ∧ 2 = newlines := by simpa using hat
      -- the headers section with its separator
      have hsection : bodyOf ((hdr ++ ['\n']) ++ '\n' :: m.data) = (hdr ++ ['\n']).length + 1 :=
        bodyOf_append hhdr m.data
      rw [hzero]
      simpa using hsection
    | some before =>
      have hnone : (view m).findHeader before = none := by
        rw [Fdm.Mail.findHeader, if_pos]
        exact Or.inl (by show m.rest.body < _; omega)
      rw [insertAt, hnone] at hat
      cases hat
  · rw [hdata, bodyOf_append hh] at hbody
    have hsplit : ∃ h₂, newlines = 1 ∧ h = h.take off ++ h₂ ∧ off ≤ h.length ∧
        Header (h.take off) ∧ Header h₂ := by
      cases before with
      | none =>
        rw [insertAt, if_neg (by omega), hbody, Nat.add_sub_cancel] at hat
        obtain ⟨rfl, rfl⟩ : h.length = off ∧ 1 = newlines := by simpa using hat
        rw [List.take_length]
        exact ⟨[], rfl, by simp, le_refl _, hh, header_nil⟩
      | some before =>
        rw [insertAt, Option.map_eq_some_iff] at hat
        obtain ⟨⟨off', l⟩, hfound, heq⟩ := hat
        obtain ⟨rfl, rfl⟩ : off' = off ∧ 1 = newlines := by simpa using heq
        rw [Fdm.Mail.findHeader] at hfound
        split_ifs at hfound
        obtain ⟨p, q, hlines, hoff, hlt⟩ := split_of_findHeaderFrom hfound
        rw [Nat.zero_add] at hoff
        have hlt' : off' < m.rest.body := hlt
        have hlines' : lines (h ++ '\n' :: b) = p ++ l :: q := by
          rw [← hdata]
          exact hlines
        obtain ⟨h₂, hsum, hp, hh₂⟩ := header_split hh hlines' (by omega)
        have htake : h.take off' = p.flatten := by
          rw [hsum, hoff, List.take_left]
        rw [htake]
        exact ⟨h₂, rfl, hsum, by omega, hp, hh₂⟩
    obtain ⟨h₂, rfl, hsum, hoff, hfront, hback⟩ := hsplit
    have hboth : h.take off ++ h.drop off = h.take off ++ h₂ := by
      rw [List.take_append_drop, ← hsum]
    have hdrop : h.drop off = h₂ := List.append_cancel_left hboth
    have htake : m.data.take off = h.take off := by
      rw [hdata, List.take_append_of_le_length hoff]
    have hrest : m.data.drop off = h₂ ++ '\n' :: b := by
      rw [hdata, List.drop_append_of_le_length hoff, hdrop]
    have hwhole : h.take off ++ (h₂ ++ '\n' :: b) = m.data := by
      rw [← List.append_assoc, ← hsum, hdata]
    rw [htake, hrest, List.replicate_one, bodyOf_splice hfront hhdr hback, hwhole]

/-- `insert_header` does to the mail what is meant for its text. -/
theorem insertHeader_spec {shmResize : ℕ → Bool} {m m' : Mail} {before : Option (List Char)}
    {hdr text : List Char} {inserted : Bool} (hdata : m.data = text)
    (hbody : m.rest.body = bodyOf text) (hfits : m.rest.off + text.length < m.rest.space)
    (hfull : Full hdr) (h : insertHeader shmResize m before hdr = some (inserted, m')) :
    m'.data = insertText before hdr text ∧ m'.rest.body = bodyOf (insertText before hdr text) ∧
      m'.rest.off + (insertText before hdr text).length < m'.rest.space := by
  subst text
  have hat : insertAt (asMail m.data) before = insertAt m before := by
    have hview : view (asMail m.data) = view m := by
      rw [view, view, hbody]
      rfl
    cases before with
    | none => rw [insertAt, insertAt, hbody]; rfl
    | some before => rw [insertAt, insertAt, hview]
  rw [insertHeader] at h
  rw [insertText, hat]
  rcases hplace : insertAt m before with _ | ⟨off, newlines⟩
  · rw [hplace] at h
    obtain ⟨-, rfl⟩ : false = inserted ∧ m = m' := by simpa using h
    exact ⟨rfl, hbody, hfits⟩
  · rw [hplace] at h
    obtain ⟨m₁, hresize, heq⟩ := Option.map_eq_some_iff.mp h
    obtain ⟨space, hspace, rfl⟩ := mailResize_spec hresize
    obtain ⟨-, rfl⟩ := Prod.mk.injEq .. |>.mp heq
    refine ⟨rfl, ?_, ?_⟩
    · rw [bodyOf_insert hbody hfull hplace, ← hbody]
    · have hlen : (m.data.take off ++ (hdr ++ List.replicate newlines '\n')
          ++ m.data.drop off).length
            = m.data.length + (hdr ++ List.replicate newlines '\n').length := by
        rw [List.length_append, List.length_append, List.length_take, List.length_drop]
        omega
      rw [hlen]
      exact hspace

/-! ## Removing the `From ` line -/

/-- Behind a `From ` line the body begins as much earlier as the line was long. -/
theorem bodyOf_trim (m : Fdm.Mail Unit) (hbody : m.body = bodyOf m.data) :
    m.trimFrom.body = bodyOf m.trimFrom.data ∧ m.trimFrom.data.length ≤ m.data.length := by
  rw [Fdm.Mail.trimFrom]
  split_ifs with hshort hprefix
  · exact ⟨hbody, le_refl _⟩
  · rw [not_or] at hshort
    rcases headed m.data with ⟨hzero, -⟩ | ⟨h, b, hh, hdata⟩
    · exact absurd (hbody.trans hzero) hshort.1
    · have hlines : lines m.data = lines h ++ lines ('\n' :: b) := by
        rw [hdata, hh.lines_text]
      rcases hls : lines h with _ | ⟨l, ls⟩
      · -- a text that starts with its separator does not start with `From `
        have hnil : h = [] := by
          rw [← flatten_lines h, hls]
          rfl
        rw [hdata, hnil] at hprefix
        simp [Fdm.Mail.fromPrefix] at hprefix
      · have hlen : ((lines m.data).headD []).length = l.length := by
          rw [hlines, hls]
          rfl
        have hflat : h = l ++ ls.flatten := by
          rw [← flatten_lines h, hls, List.flatten_cons]
        have hrest : Header ls.flatten :=
          (header_flatten fun x hx => hh x (by simp [hls, hx])).2
        have hdrop : m.data.drop l.length = ls.flatten ++ '\n' :: b := by
          rw [hdata, hflat, List.append_assoc, List.drop_left]
        refine ⟨?_, ?_⟩
        · show m.body - _ = bodyOf (m.data.drop _)
          rw [hlen, hdrop, bodyOf_append hrest, hbody, hdata, bodyOf_append hh, hflat,
            List.length_append]
          omega
        · show (m.data.drop _).length ≤ _
          rw [List.length_drop]
          omega
  · exact ⟨hbody, le_refl _⟩

/-- Cutting the line off leaves a mail whose body and size are right. -/
theorem trimFrom_spec {m : Mail} {text : List Char} (hdata : m.data = text)
    (hbody : m.rest.body = bodyOf text) (hfits : m.rest.off + text.length < m.rest.space) :
    (trimFrom m).data = trimText text ∧ (trimFrom m).rest.body = bodyOf (trimText text) ∧
      (trimFrom m).rest.off + (trimText text).length < (trimFrom m).rest.space := by
  subst text
  have hview : view (asMail m.data) = view m := by
    rw [view, view, hbody]
    rfl
  obtain ⟨hend, hle⟩ := bodyOf_trim (view m) hbody
  rw [trimText, hview]
  refine ⟨rfl, hend, ?_⟩
  show m.rest.off + (m.data.length - (view m).trimFrom.data.length) + _ < m.rest.space
  have hlen : (view m).trimFrom.data.length ≤ m.data.length := hle
  omega

/-! ## Removing headers -/

@[simp] theorem setWrapped_rest (ch : Char) (m : Mail) : (m.setWrapped ch).rest = m.rest := by
  rw [Rules.MailData.setWrapped]
  split_ifs <;> rfl

section

variable (fnmatch : List Char → List Char → Bool)

/-- Removing headers leaves the block of the mail where it is. -/
theorem removeMatches_region (patt : List Char) (n : ℕ) (m : Mail) :
    (removeMatches fnmatch patt n m).rest.off = m.rest.off ∧
      (removeMatches fnmatch patt n m).rest.space = m.rest.space := by
  induction n generalizing m with
  | zero => exact ⟨rfl, rfl⟩
  | succ n ih =>
    rw [removeMatches]
    split
    · exact ⟨rfl, rfl⟩
    · exact ih _

/-- So does a whole delivery. -/
theorem deliver_region {hdrs : List (Option (List Char))} {m m' : Mail} {res : DeliverResult}
    (h : deliverRemoveHeader fnmatch hdrs m = some (res, m')) :
    m'.rest.off = m.rest.off ∧ m'.rest.space = m.rest.space := by
  induction hdrs generalizing m with
  | nil =>
    obtain ⟨-, rfl⟩ : DeliverResult.success = res ∧ m.setWrapped '\n' = m' := by
      simpa [deliverRemoveHeader] using h
    exact ⟨by rw [setWrapped_rest], by rw [setWrapped_rest]⟩
  | cons hdr hdrs ih =>
    rcases hdr with _ | _ | ⟨c, cs⟩
    · cases h
      exact ⟨rfl, rfl⟩
    · cases h
      exact ⟨rfl, rfl⟩
    · rw [deliverRemoveHeader, Option.bind_eq_some_iff] at h
      · obtain ⟨m₁, hfill, h⟩ := h
        obtain rfl := Option.some.inj hfill
        have hloop := ih h
        obtain ⟨hoff, hspace⟩ := removeMatches_region fnmatch (c :: cs)
          (({ forget m with
              wrapped := fillFrom m.rest.body 0 m.data, wrapchar := '\x00' } : Mail).setWrapped
            ' ').data.length _
        exact ⟨hloop.1.trans (hoff.trans (by rw [setWrapped_rest]; rfl)),
          hloop.2.trans (hspace.trans (by rw [setWrapped_rest]; rfl))⟩
      · simp

end

/-- A header that is added is in the text, in front of the others, unless the mail is unfolded. -/
theorem inv_addHeader {shmResize : ℕ → Bool} {m m' : Mail} {text : List Char}
    {hdr value : Option (List Char)} {res : DeliverResult} (hinv : Inv m text)
    (hguard : addedHeader hdr value = none ∨ Folded m = true)
    (hfull : ∀ added ∈ addedHeader hdr value, Full added)
    (h : deliverAddHeader shmResize hdr value m = some (res, m')) :
    Inv m' ((addedHeader hdr value).elim text fun added => insertText none added text) := by
  match hdr, value with
  | none, _ => cases h; exact hinv
  | some [], _ => cases h; exact hinv
  | some (c :: cs), none => cases h; exact hinv
  | some (c :: cs), some value =>
    have hfolded := hguard.resolve_left (by simp [addedHeader])
    rw [deliverAddHeader, Option.bind_eq_some_iff] at h
    · obtain ⟨⟨inserted, m₁⟩, hinsert, hrest⟩ := h
      have hspec := insertHeader_spec (hinv.data_eq hfolded) hinv.body hinv.fits
        (hfull _ rfl) hinsert
      have hplace : inserted = true := by
        -- at the end of the headers there is always a place
        rw [insertHeader, insertAt] at hinsert
        split_ifs at hinsert <;>
        · obtain ⟨_, -, heq⟩ := Option.map_eq_some_iff.mp hinsert
          exact (congrArg Prod.fst heq).symm
      subst hplace
      have hmap : (fillWrapped (forget m₁)).map (DeliverResult.success, ·) = some (res, m') := hrest
      obtain ⟨m₂, hfill, heq⟩ := Option.map_eq_some_iff.mp hmap
      obtain ⟨-, rfl⟩ : DeliverResult.success = res ∧ m₂ = m' := by simpa using heq
      exact inv_refill hspec.1 hspec.2.1 hspec.2.2 hfill
    · simp

/-- What remove-header leaves, when no list is filled while folds are blanks. -/
theorem inv_removeHeader {fnmatch : List Char → List Char → Bool} {m m' : Mail} {text : List Char}
    {hdrs : List (Option (List Char))} {res : DeliverResult} (hinv : Inv m text)
    (hguard : handled hdrs = [] ∨ Folded m = true ∧
      ((handled hdrs).length ≤ 1 ∨ FoldsGone fnmatch (handled hdrs) m.data))
    (h : deliverRemoveHeader fnmatch hdrs m = some (res, m')) :
    Inv m' (removeText fnmatch (handled hdrs) text) := by
  by_cases hnone : handled hdrs = []
  · -- nothing is removed
    have htext : removeText fnmatch (handled hdrs) text = text := by
      have hkept : kept fnmatch [] (fields (headerOf text)) = fields (headerOf text) := by
        simp [kept]
      rw [removeText, hnone, hkept, flatten_fields, header_rest]
    rw [htext]
    rcases hdrs with _ | ⟨_ | _ | ⟨c, cs⟩, hdrs⟩
    · obtain ⟨-, rfl⟩ : DeliverResult.success = res ∧ m.setWrapped '\n' = m' := by
        simpa [deliverRemoveHeader] using h
      exact hinv.setWrapped .newline
    · cases h
      exact hinv
    · cases h
      exact hinv
    · cases hnone
  · obtain ⟨hfolded, hkeep⟩ := hguard.resolve_left hnone
    have hdata := hinv.data_eq hfolded
    obtain ⟨hoff, hspace⟩ := deliver_region fnmatch h
    have hfits := hinv.fits
    rw [hdata] at hkeep
    rcases headed text with ⟨hzero, -⟩ | ⟨hd, b, hhd, rfl⟩
    · -- without a body no header is found
      have hheader := headerOf_of_bodyOf hzero
      have hwrapped : m.wrapped = [] := by
        rw [hinv.wrapped, hheader]
        rfl
      obtain ⟨res', m₁, hrun, hdata', hw, hrest⟩ :=
        deliver_bodyless fnmatch hdrs (hinv.body.trans hzero) hwrapped
      obtain ⟨rfl, rfl⟩ : res' = res ∧ m₁ = m' := by simpa [hrun] using h
      have htext : removeText fnmatch (handled hdrs) text = text := by
        have hrestOf := header_rest text
        rw [hheader, List.nil_append] at hrestOf
        rw [removeText, hheader, fields, kept, List.filter_nil, List.flatten_nil, List.nil_append,
          hrestOf]
      rw [htext]
      refine ⟨?_, ?_, ?_, ?_⟩
      · rw [hrest]
        exact hfits
      · rw [hrest]
        exact hinv.body
      · rw [hw, hheader]
        rfl
      · have hrestOf := header_rest text
        rw [hheader, List.nil_append] at hrestOf
        rw [hdata', hdata, hheader, setFolds, List.nil_append, hrestOf]
    · have hfs := hhd.headers
      have hfields : m.data = (fields hd).flatten ++ '\n' :: b := by rw [flatten_fields, hdata]
      have hbody : m.rest.body = (fields hd).flatten.length + 1 := by
        rw [hinv.body, bodyOf_append hhd, flatten_fields]
      obtain ⟨res', m₁, hrun, hlaid, hchar⟩ := deliver_laid fnmatch hnone hfields hbody hfs
      obtain ⟨rfl, rfl⟩ : res' = res ∧ m₁ = m' := by simpa [hrun] using h
      rw [FoldsGone, headerOf_append hhd, ← remaining_flatten_iff fnmatch hfs] at hkeep
      have hsub : Headers (kept fnmatch (handled hdrs) (fields hd)) :=
        hfs.sublist (kept_sublist _ _ _)
      have htext : removeText fnmatch (handled hdrs) (hd ++ '\n' :: b)
          = (kept fnmatch (handled hdrs) (fields hd)).flatten ++ '\n' :: b := by
        rw [removeText, headerOf_append hhd, restOf_append hhd]
      have hlen : (kept fnmatch (handled hdrs) (fields hd)).flatten.length ≤ hd.length := by
        have hle := (kept_sublist fnmatch (handled hdrs) (fields hd)).flatten.length_le
        rwa [flatten_fields] at hle
      have hend : foldChar m₁ = res'.wrapchar := by
        rw [foldChar, hchar]
        cases res' <;> rfl
      rw [htext]
      refine ⟨?_, ?_, ?_, ?_⟩
      · rw [List.length_append] at hfits ⊢
        omega
      · rw [hlaid.body, hkeep, bodyOf_append hsub.header]
      · rw [hlaid.wrapped, hkeep, headerOf_append hsub.header]
      · rw [hlaid.data, hkeep, hend, headerOf_append hsub.header, restOf_append hsub.header]

/-! ## Every run -/

section

variable {fnmatch : List Char → List Char → Bool} {shmResize : ℕ → Bool}

/-- An operation of a kept run keeps the invariant. -/
theorem inv_step {s s' : Edited} {op : Op} (h : Inv s.mail s.text)
    (hguard : keeps fnmatch s op = true) (hs : step fnmatch shmResize s op = some s') :
    Inv s'.mail s'.text := by
  cases op with
  | setWrapped form =>
    obtain rfl := Option.some.inj hs
    exact h.setWrapped form
  | insertHeader before hdr hfull =>
    obtain ⟨⟨inserted, m⟩, hinsert, hrest⟩ := Option.bind_eq_some_iff.mp hs
    obtain ⟨m', hfill, rfl⟩ := Option.map_eq_some_iff.mp hrest
    obtain ⟨hdata, hbody, hfits⟩ :=
      insertHeader_spec (h.data_eq hguard) h.body h.fits hfull hinsert
    exact inv_refill hdata hbody hfits hfill
  | trimFrom =>
    rw [step, Option.map_eq_some_iff] at hs
    obtain ⟨m', hfill, rfl⟩ := hs
    obtain ⟨hdata, hbody, hfits⟩ := trimFrom_spec (h.data_eq hguard) h.body h.fits
    exact inv_refill hdata hbody hfits hfill
  | addHeader hdr value hfull =>
    obtain ⟨⟨res, m⟩, hadd, rfl⟩ := Option.map_eq_some_iff.mp hs
    refine inv_addHeader h ?_ hfull hadd
    simpa [keeps] using hguard
  | removeHeader hdrs =>
    obtain ⟨⟨res, m⟩, hremove, rfl⟩ := Option.map_eq_some_iff.mp hs
    refine inv_removeHeader h ?_ hremove
    simpa [keeps, FoldsGone, or_iff_not_imp_left] using hguard

variable (fnmatch shmResize)

/-- In a run that fills no list while folds are blanks, the mail always holds its text. -/
theorem represents_of_keeps (fetched : Fetched) {ops : List Op} {s : Edited}
    (h : exec (guarded (step fnmatch shmResize) (keeps fnmatch)) fetched.start ops = some s) :
    Represents s.mail s.text :=
  (invariant_of_execGuarded (I := fun s => Inv s.mail s.text)
    (fun _ _ _ => inv_step) (inv_start fetched) h).represents

end

/-- The folded mail, as it was fetched. -/
def foldedFetched : Fetched where
  data := foldedMail.data
  space := 512
  fits := by decide

/-- The rules match on the mail, and two headers are removed from it. -/
def twoHeaders : List Op :=
  [.setWrapped .blank, .setWrapped .newline, .removeHeader [some ['X'], some ['Y']]]

/-- An operation of each kind. -/
def mixedOps : List Op :=
  [.setWrapped .blank, .setWrapped .newline,
    .addHeader (some ['L']) (some ['1', '\n', '\t', '2']) (by decide),
    .removeHeader [some ['X']], .trimFrom, .insertHeader (some ['A']) ['R', ':'] (by decide)]

/-- Memory for small mails. -/
def smallShm (size : ℕ) : Bool := size < 4096

/-- Where a run ends. -/
def runOf (ops : List Op) : Option Edited :=
  exec (step sameName smallShm) foldedFetched.start ops

/-- Where a run ends that fills no list while folds are blanks. -/
def runKept (ops : List Op) : Option Edited :=
  exec (guarded (step sameName smallShm) (keeps sameName)) foldedFetched.start ops

theorem represents_of_keeps_mixedOps :
    Represents ((runKept mixedOps).get (by decide)).mail ((runKept mixedOps).get (by decide)).text :=
  represents_of_keeps sameName smallShm foldedFetched (Option.some_get (x := runKept mixedOps) _).symm

/-- The second pattern fills the list while the folds are blanks. -/
theorem not_represents_twoHeaders :
    ¬ ∀ (fnmatch : List Char → List Char → Bool) (shmResize : ℕ → Bool) (fetched : Fetched)
      (ops : List Op) (s : Edited), exec (step fnmatch shmResize) fetched.start ops = some s →
      Represents s.mail s.text := by
  intro hall
  have hend := hall sameName smallShm foldedFetched twoHeaders
    ((runOf twoHeaders).get (by decide)) (Option.some_get (x := runOf twoHeaders) _).symm
  have hsame := hend.same (by decide)
  revert hsame
  decide

end Fdm.Wrap
