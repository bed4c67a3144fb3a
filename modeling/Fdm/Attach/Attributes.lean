import Fdm.Attach.ContentType

/-!
# The attributes of a Content-Type header

`attach_type` takes one attribute after the other and moves `hdr` behind it, but `len` stays as
it was: from the second attribute on, `hdr` and `len` reach behind the end of the mail.
-/

namespace Fdm.Attach

open Lib.Scanf
open Lib.Strchr (all_ne takeWhile_stop dropWhile_stop takeWhile_ne takeWhile_ne_self)

/-! ## Where `attach_type` reads -/

/-- `attach_type` up to the type: what is left of the mail there, its length, and the length of
the type. -/
def typeStart (s : List Char) : Read (List Char × ℕ × ℕ) :=
  if !isContentType s then .error .failed
  else
    (skipSpaces (s.drop 13) (s.length - 13)).bind fun (s, len) =>
      if len = 0 then .error .failed
      else
        (memchr '\n' s len).bind fun nl =>
          (memchr ';' s (nl.getD len)).map fun semi => (s, len, semi.getD (nl.getD len))

theorem attachType_eq (name s : List Char) :
    attachType name s = (typeStart s).bind fun (s, len, tlen) => typeOf name s len tlen := by
  unfold attachType typeStart
  split_ifs
  · rfl
  · cases skipSpaces (s.drop 13) (s.length - 13) with
    | error stop => rfl
    | ok p =>
      obtain ⟨t, len⟩ := p
      simp only [Except.bind]
      split_ifs
      · rfl
      · cases memchr '\n' t len with
        | error stop => rfl
        | ok nl =>
          dsimp only
          cases memchr ';' t (nl.getD len) <;> rfl

/-- One pass of the loop over the attributes: a value or none, or `hdr` and `len` for the next
pass. -/
def attrPass (name s : List Char) (len : ℕ) : Read (Option (List Char) ⊕ List Char × ℕ) :=
  (skipSpaces s len).bind fun (s, len) =>
    if len = 0 then .error .failed
    else
      (memchr '\n' s len).bind fun nl =>
        let llen := nl.getD len
        (memchr '=' s llen).bind fun
          | none => .ok (.inl none)
          | some i =>
            if i = name.length ∧ s.take name.length = name then
              (attrValue (s.drop (i + 1)) (llen - (i + 1))).map fun value => .inl (some value)
            else
              (memchr ';' s llen).map fun
                | none => .inl none
                | some j => .inr (s.drop (j + 1), len)

theorem attachAttr_pass (name : List Char) (fuel : ℕ) (s : List Char) (len : ℕ) :
    attachAttr name (fuel + 1) s len =
      (attrPass name s len).bind fun
        | .inl value => .ok value
        | .inr (s, len) => attachAttr name fuel s len := by
  rw [attachAttr, attrPass]
  cases skipSpaces s len with
  | error stop => rfl
  | ok p =>
    obtain ⟨t, len⟩ := p
    simp only [Except.bind]
    split_ifs
    · rfl
    · cases memchr '\n' t len with
      | error stop => rfl
      | ok nl =>
        dsimp only
        cases memchr '=' t (nl.getD len) with
        | error stop => rfl
        | ok i =>
          cases i with
          | none => rfl
          | some i =>
            dsimp only
            split_ifs
            · cases attrValue (t.drop (i + 1)) (nl.getD len - (i + 1)) <;> rfl
            · cases memchr ';' t (nl.getD len) with
              | error stop => rfl
              | ok j => cases j <;> rfl

/-- `hdr` and `len` in front of each pass of the loop over the attributes. -/
def attrPairs (name : List Char) : ℕ → List Char → ℕ → List (List Char × ℕ)
  | 0, s, len => [(s, len)]
  | fuel + 1, s, len =>
    (s, len) ::
      match attrPass name s len with
      | .ok (.inr (s', len')) => attrPairs name fuel s' len'
      | _ => []

/-- `hdr` and `len` wherever `len` bounds what is read from `hdr` on: at the start of the header,
at the type, behind it and in the loop. `hdr` is given as what is left of the mail there. -/
def pairs (name s : List Char) : List (List Char × ℕ) :=
  (s, s.length) ::
    match typeStart s with
    | .error _ => []
    | .ok (t, len, tlen) =>
      (t, len) :: (t.drop tlen, len - tlen) ::
        if len - tlen = 0 ∨ (t.drop tlen).head? = some '\n' then []
        else attrPairs name (t.length + 1) (t.drop (tlen + 1)) (len - tlen - 1)

/-! ## Headers -/

/-- An attribute: `name=value`, with quotes around the value or without, and with white space in
front that may be newlines. -/
structure Attribute where
  white : List Char
  name : List Char
  value : List Char
  quoted : Bool
  isWhite : ∀ c ∈ white, isSpace c = true
  name_plain : '=' ∉ name ∧ ';' ∉ name ∧ '\n' ∉ name
  name_start : ∀ c ∈ name.head?, isSpace c = false
  value_line : '\n' ∉ value
  value_plain : if quoted then '"' ∉ value else ';' ∉ value ∧ value.head? ≠ some '"'

/-- The value of an attribute as it stands in the header. -/
def Attribute.valueText (a : Attribute) : List Char :=
  if a.quoted then '"' :: (a.value ++ ['"']) else a.value

/-- Attributes, each with a semicolon in front. -/
def attrsText : List Attribute → List Char
  | [] => []
  | a :: as => ';' :: (a.white ++ (a.name ++ '=' :: (a.valueText ++ attrsText as)))

/-- The mail from a Content-Type header on: the type, some attributes that are read one after the
other, and what is behind the last one of them. -/
structure ContentTypeHeader where
  start : List Char
  white : List Char
  type : List Char
  attrs : List Attribute
  rest : List Char
  isStart : isContentType start = true ∧ start.length = 13
  isWhite : ∀ c ∈ white, isSpace c = true
  type_plain : ';' ∉ type ∧ '\n' ∉ type
  type_start : ∀ c ∈ type.head?, isSpace c = false
  nonempty : type ≠ [] ∨ attrs ≠ []
  rest_start : ∀ c ∈ rest.head?, c = '\n' ∨ c = ';'

namespace ContentTypeHeader

def text (h : ContentTypeHeader) : List Char :=
  h.start ++ (h.white ++ (h.type ++ (attrsText h.attrs ++ h.rest)))

/-- The attribute with some name. -/
def attr (h : ContentTypeHeader) (name : List Char) : Option Attribute :=
  h.attrs.find? (·.name = name)

/-- There is no attribute behind the last one. -/
def Whole (h : ContentTypeHeader) : Prop := h.rest.head? ≠ some ';'

end ContentTypeHeader

/-- The text between the name of the header and the first semicolon or the end of the line. -/
def typeText (s : List Char) : List Char :=
  ((s.drop 13).dropWhile isSpace).takeWhile fun c => c ≠ ';' ∧ c ≠ '\n'

/-- The header is read as it should be. A type and a value are C strings, so that they end at a
zero byte if there is one. -/
structure ReadsAttribute (name s : List Char) : Prop where
  exact : ∀ p ∈ pairs name s, p.2 = p.1.length
  inside : attachType name s ≠ .error .behind
  ends : attachType name s ≠ .error .fuel
  type : ∀ type value, attachType name s = .ok (type, value) → type = Mail.cString (typeText s)
  found : ∀ h : ContentTypeHeader, s = h.text → ∀ a, h.attr name = some a →
    attachType name s = .ok (Mail.cString h.type, some (Mail.cString a.value))
  absent : ∀ h : ContentTypeHeader, s = h.text → h.Whole → h.attr name = none →
    attachType name s = .ok (Mail.cString h.type, none)

/-- What is left of the mail at the first attribute. -/
def firstAttr (s : List Char) : Option (List Char) :=
  if isContentType s then
    let t := ((s.drop 13).dropWhile isSpace).dropWhile fun c => c ≠ ';' ∧ c ≠ '\n'
    if t.head? = some ';' then some (t.tail.dropWhile isSpace) else none
  else none

/-- The first attribute decides: it is the one that is looked for, its value is there, and if the
value stands between quotes there is no semicolon in it; or it is another one and the line has no
semicolon. -/
def Decides (name t : List Char) : Prop :=
  '=' ∈ t.takeWhile (· ≠ '\n') →
    if (t.takeWhile (· ≠ '\n')).takeWhile (· ≠ '=') = name then
      t ≠ name ++ ['='] ∧
        (';' ∉ name → ∀ value rest, t = name ++ '=' :: '"' :: (value ++ '"' :: rest) → '"' ∉ value →
          '\n' ∉ value → (∀ c ∈ rest.head?, c = '\n' ∨ c = ';') → ';' ∉ value)
    else ';' ∉ t.takeWhile (· ≠ '\n')

/-! ## Searching in what is left of the mail -/

/-- `memchr` within the mail: the length up to the character, or to the end. -/
theorem memchr_within (c : Char) {s : List Char} {len : ℕ} (h : len ≤ s.length) :
    ∃ i, memchr c s len = .ok i ∧ i.getD len = ((s.take len).takeWhile (· ≠ c)).length ∧
      (i = none ↔ c ∉ s.take len) := by
  by_cases hc : c ∈ s.take len
  · obtain ⟨a, b, hab, ha⟩ := List.eq_append_cons_of_mem hc
    have hlen : (s.take len).length = a.length + (b.length + 1) := by simp [hab]
    have hle : (s.take len).length ≤ len := List.length_take_le _ _
    have hs : s = a ++ c :: (b ++ s.drop len) := by
      conv_lhs => rw [← List.take_append_drop len s, hab]
      simp
    have hfound : memchr c s len = .ok (some a.length) := by
      conv_lhs => rw [hs]
      exact memchr_found ha _ (by omega)
    refine ⟨some a.length, hfound, ?_, ?_⟩
    · rw [hab, takeWhile_ne ha]
      rfl
    · simp [hc]
  · refine ⟨none, memchr_absent hc h, ?_, by simp [hc]⟩
    rw [takeWhile_ne_self hc, List.length_take_of_le h, Option.getD_none]

theorem skipSpaces_exact (s : List Char) :
    skipSpaces s s.length = .ok (s.dropWhile isSpace, (s.dropWhile isSpace).length) := by
  induction s with
  | nil => rfl
  | cons c s ih =>
    rw [List.length_cons, skipSpaces]
    cases hc : isSpace c with
    | true => rw [if_pos rfl, List.dropWhile_cons_of_pos hc, ih]
    | false =>
      rw [if_neg Bool.false_ne_true, List.dropWhile_cons_of_neg (by simp [hc]), List.length_cons]

/-- The line at the start of a text. -/
theorem take_line (s : List Char) :
    s.take (s.takeWhile (· ≠ '\n')).length = s.takeWhile (· ≠ '\n') :=
  (List.prefix_iff_eq_take.mp (List.takeWhile_prefix _)).symm

theorem line_le (s : List Char) : (s.takeWhile (· ≠ '\n')).length ≤ s.length :=
  (List.takeWhile_prefix _).length_le

/-- Where the line ends. -/
theorem memchr_lineEnd (s : List Char) :
    ∃ nl, memchr '\n' s s.length = .ok nl ∧ nl.getD s.length = (s.takeWhile (· ≠ '\n')).length := by
  obtain ⟨nl, hnl, hlen, -⟩ := memchr_within '\n' (le_refl s.length)
  rw [List.take_length] at hlen
  exact ⟨nl, hnl, hlen⟩

/-- The text from the type on. -/
theorem typeStart_exact {s : List Char} (h : isContentType s = true)
    (hne : (s.drop 13).dropWhile isSpace ≠ []) :
    typeStart s = .ok ((s.drop 13).dropWhile isSpace, ((s.drop 13).dropWhile isSpace).length,
      (typeText s).length) := by
  set t := (s.drop 13).dropWhile isSpace with ht
  have hpos : t.length ≠ 0 := fun hlen => hne (List.length_eq_zero_iff.mp hlen)
  obtain ⟨nl, hnl, hline⟩ := memchr_lineEnd t
  obtain ⟨semi, hsemi, htype, -⟩ := memchr_within ';' (line_le t)
  rw [take_line, List.takeWhile_takeWhile] at htype
  have htext : (typeText s).length = (t.takeWhile fun c => c ≠ ';' ∧ c ≠ '\n').length := rfl
  rw [typeStart, h, ← List.length_drop, skipSpaces_exact, ← ht]
  simp only [Except.bind, Bool.not_true, Bool.false_eq_true, if_false, if_neg hpos, hnl, hline,
    hsemi, Except.map, htext, htype]
  simp

/-- One pass of the loop when `len` is what is left of the mail. -/
theorem attrPass_exact (name s : List Char) :
    attrPass name s s.length =
      let t := s.dropWhile isSpace
      let l := t.takeWhile (· ≠ '\n')
      if t = [] then .error .failed
      else if '=' ∉ l then .ok (.inl none)
      else if l.takeWhile (· ≠ '=') = name then
        (attrValue (t.drop (name.length + 1)) (l.length - (name.length + 1))).map
          fun value => .inl (some value)
      else if ';' ∉ l then .ok (.inl none)
      else .ok (.inr (t.drop ((l.takeWhile (· ≠ ';')).length + 1), t.length)) := by
  rw [attrPass, skipSpaces_exact]
  set t := s.dropWhile isSpace with ht
  by_cases hne : t = []
  · simp [hne, Except.bind]
  have hpos : t.length ≠ 0 := fun hlen => hne (List.length_eq_zero_iff.mp hlen)
  obtain ⟨nl, hnl, hline⟩ := memchr_lineEnd t
  obtain ⟨eq, heq, hname, heqnone⟩ := memchr_within '=' (line_le t)
  obtain ⟨semi, hsemi, hcut, hseminone⟩ := memchr_within ';' (line_le t)
  rw [take_line] at hname hcut heqnone hseminone
  simp only [Except.bind, if_neg hpos, hnl, hline, heq, if_neg hne]
  cases eq with
  | none => rw [if_pos (heqnone.mp rfl)]
  | some i =>
    have hi : i = ((t.takeWhile (· ≠ '\n')).takeWhile (· ≠ '=')).length := hname
    have hmem : '=' ∈ t.takeWhile (· ≠ '\n') := by
      by_contra hc
      cases heqnone.mpr hc
    have hprefix : t.take i = (t.takeWhile (· ≠ '\n')).takeWhile (· ≠ '=') := by
      rw [hi]
      exact (List.prefix_iff_eq_take.mp
        ((List.takeWhile_prefix _).trans (List.takeWhile_prefix _))).symm
    have hsame : (i = name.length ∧ t.take name.length = name) ↔
        (t.takeWhile (· ≠ '\n')).takeWhile (· ≠ '=') = name := by
      rw [← hprefix]
      constructor
      · rintro ⟨hlen, htake⟩
        rwa [hlen]
      · intro htake
        have hlen : i = name.length := by
          rw [hi, ← hprefix, htake]
        exact ⟨hlen, hlen ▸ htake⟩
    rw [if_neg (not_not.mpr hmem)]
    dsimp only
    by_cases hkey : (t.takeWhile (· ≠ '\n')).takeWhile (· ≠ '=') = name
    · rw [if_pos (hsame.mpr hkey), if_pos hkey, (hsame.mpr hkey).1]
    · rw [if_neg fun h => hkey (hsame.mp h), if_neg hkey, hsemi]
      cases semi with
      | none =>
        rw [if_pos (hseminone.mp rfl)]
        rfl
      | some j =>
        have hj : j = ((t.takeWhile (· ≠ '\n')).takeWhile (· ≠ ';')).length := hcut
        have hmem' : ';' ∈ t.takeWhile (· ≠ '\n') := by
          by_contra hc
          cases hseminone.mpr hc
        rw [if_neg (not_not.mpr hmem'), ← hj]
        rfl

/-- The line of an attribute. -/
theorem line_key {key : List Char} (h : '\n' ∉ key) (v : List Char) :
    (key ++ '=' :: v).takeWhile (· ≠ '\n') = key ++ '=' :: v.takeWhile (· ≠ '\n') := by
  rw [List.takeWhile_append_of_pos (all_ne h), List.takeWhile_cons_of_pos (by decide)]

/-- A line with `=` starts with a name. -/
theorem key_split {t name : List Char} (h : '=' ∈ t.takeWhile (· ≠ '\n'))
    (hkey : (t.takeWhile (· ≠ '\n')).takeWhile (· ≠ '=') = name) :
    ∃ v, t = name ++ '=' :: v ∧ '=' ∉ name ∧ '\n' ∉ name := by
  obtain ⟨a, b, hab, ha⟩ := List.eq_append_cons_of_mem h
  rw [hab, takeWhile_ne ha] at hkey
  subst hkey
  refine ⟨b ++ t.dropWhile (· ≠ '\n'), ?_, ha, ?_⟩
  · conv_lhs => rw [← List.takeWhile_append_dropWhile (l := t) (p := fun c => c ≠ '\n'), hab]
    simp
  · intro hmem
    have hline : '\n' ∈ t.takeWhile (· ≠ '\n') := hab ▸ List.mem_append_left _ hmem
    simpa using List.mem_takeWhile_imp hline

/-! ## Values -/

/-- The value goes up to the first semicolon or the end of the line. -/
theorem attrValue_exact (v : List Char) :
    attrValue v (v.takeWhile (· ≠ '\n')).length =
      unquote v (v.takeWhile fun c => c ≠ ';' ∧ c ≠ '\n').length := by
  obtain ⟨semi, hsemi, hcut, -⟩ := memchr_within ';' (line_le v)
  rw [take_line, List.takeWhile_takeWhile] at hcut
  rw [attrValue, hsemi]
  simp only [Except.bind, hcut]
  simp

theorem unquote_ne_behind {v : List Char} (h : v ≠ []) (llen : ℕ) :
    unquote v llen ≠ .error .behind := by
  rw [unquote, if_neg h]
  split_ifs <;> simp

namespace Attribute

variable (a : Attribute)

theorem valueText_line : '\n' ∉ a.valueText := by
  have h := a.value_line
  unfold valueText
  split_ifs <;> simp [h]

/-- A value without a semicolon is read as a whole. -/
theorem unquote_valueText {rest : List Char} (hsemi : ';' ∉ a.value)
    (hrest : ∀ c ∈ rest.head?, c = '\n' ∨ c = ';') (hne : a.valueText ++ rest ≠ []) :
    attrValue (a.valueText ++ rest) ((a.valueText ++ rest).takeWhile (· ≠ '\n')).length =
      .ok (Mail.cString a.value) := by
  have hplain := a.value_plain
  have hcut : ((a.valueText ++ rest).takeWhile fun c => c ≠ ';' ∧ c ≠ '\n') = a.valueText := by
    apply takeWhile_stop
    · intro x hx
      have hnl : x ≠ '\n' := fun heq => a.valueText_line (heq ▸ hx)
      have hsemi' : x ≠ ';' := by
        rintro rfl
        unfold valueText at hx
        split_ifs at hx <;> simp [hsemi] at hx
      simp [hnl, hsemi']
    · intro c hc
      rcases hrest c hc with rfl | rfl <;> simp
  rw [attrValue_exact, hcut, unquote, if_neg hne]
  unfold valueText at hne ⊢
  by_cases hq : a.quoted
  · simp [hq]
  · rw [if_neg hq] at hplain hne ⊢
    have hhead : (a.value ++ rest).head? ≠ some '"' := by
      cases hv : a.value with
      | nil =>
        intro hquote
        rw [List.nil_append] at hquote
        rcases hrest '"' hquote with h | h <;> cases h
      | cons c v =>
        rw [hv] at hplain
        exact hplain.2
    rw [if_neg hhead, List.take_left' rfl]

/-- A value between quotes with a semicolon in it is not read. -/
theorem unquote_semicolon {value : List Char} (hquote : '"' ∉ value) (hline : '\n' ∉ value)
    (hsemi : ';' ∈ value) (rest : List Char) :
    attrValue ('"' :: (value ++ '"' :: rest))
      (('"' :: (value ++ '"' :: rest)).takeWhile (· ≠ '\n')).length = .error .failed := by
  obtain ⟨start, more, rfl, hstart⟩ := List.eq_append_cons_of_mem hsemi
  have hcut : (('"' :: (start ++ ';' :: more ++ '"' :: rest)).takeWhile
      fun c => c ≠ ';' ∧ c ≠ '\n') = '"' :: start := by
    have hsplit : '"' :: (start ++ ';' :: more ++ '"' :: rest) =
        ('"' :: start) ++ (';' :: (more ++ '"' :: rest)) := by simp
    rw [hsplit]
    apply takeWhile_stop
    · intro x hx
      have hsemi' : x ≠ ';' := by
        rintro rfl
        exact hstart (by simpa using hx)
      have hnl : x ≠ '\n' := by
        rintro rfl
        exact hline (List.mem_append_left _ (by simpa using hx))
      simp [hsemi', hnl]
    · simp
  have hsplit : '"' :: (start ++ ';' :: more ++ '"' :: rest) =
      '"' :: start ++ (';' :: (more ++ '"' :: rest)) := by simp
  rw [attrValue_exact, hcut, hsplit]
  exact unquote_cut (fun hmem => hquote (List.mem_append_left _ hmem)) _

end Attribute

/-! ## The three ways through `attach_type` -/

/-- There is no type, or a type without attributes behind it, or the loop over the attributes is
entered with the first one. -/
inductive Way (name s : List Char) : Prop
  | failed (hfirst : firstAttr s = none) (hpairs : pairs name s = [(s, s.length)])
    (hno : isContentType s = false ∨ (s.drop 13).dropWhile isSpace = [])
    (hres : attachType name s = .error .failed)
  | plain (hfirst : firstAttr s = none) (hpairs : ∀ p ∈ pairs name s, p.2 = p.1.length)
    (hres : attachType name s = .ok (Mail.cString (typeText s), none))
  | attrs (w : List Char) (fuel : ℕ) (hfirst : firstAttr s = some (w.dropWhile isSpace))
    (hpairs : ∀ p, p ∈ pairs name s → p.2 = p.1.length ∨ p ∈ attrPairs name (fuel + 1) w w.length)
    (hloop : ∀ p ∈ attrPairs name (fuel + 1) w w.length, p ∈ pairs name s)
    (hres : attachType name s = (attachAttr name (fuel + 1) w w.length).map fun value =>
      (Mail.cString (typeText s), value))

theorem way (name s : List Char) : Way name s := by
  cases hstart : isContentType s with
  | false =>
    have htype : typeStart s = .error .failed := by
      rw [typeStart, hstart]
      rfl
    refine .failed ?_ ?_ (.inl hstart) ?_
    · rw [firstAttr, hstart]
      rfl
    · rw [pairs, htype]
    · rw [attachType_eq, htype]
      rfl
  | true =>
    by_cases hne : (s.drop 13).dropWhile isSpace = []
    · have htype : typeStart s = .error .failed := by
        rw [typeStart, hstart, ← List.length_drop, skipSpaces_exact, hne]
        rfl
      refine .failed ?_ ?_ (.inr hne) ?_
      · rw [firstAttr, hne]
        simp
      · rw [pairs, htype]
      · rw [attachType_eq, htype]
        rfl
    · have htype := typeStart_exact hstart hne
      set t := (s.drop 13).dropWhile isSpace with ht
      -- `u` is what is behind the type
      set u := t.dropWhile fun c => c ≠ ';' ∧ c ≠ '\n' with hu
      have hsplit : t = typeText s ++ u := List.takeWhile_append_dropWhile.symm
      have hdrop : t.drop (typeText s).length = u := by
        conv_lhs => rw [hsplit]
        exact List.drop_left' rfl
      have htake : t.take (typeText s).length = typeText s := by
        conv_lhs => rw [hsplit]
        exact List.take_left' rfl
      have hlen : t.length - (typeText s).length = u.length := by
        rw [← List.length_drop, hdrop]
      have htail : t.drop ((typeText s).length + 1) = u.tail := by
        rw [← List.drop_drop, hdrop, List.drop_one]
      have hfirst : firstAttr s =
          if u.head? = some ';' then some (u.tail.dropWhile isSpace) else none := by
        rw [firstAttr, hstart, if_pos rfl, ← ht]
      have hhead : ∀ c ∈ u.head?, c = ';' ∨ c = '\n' := by
        intro c hc
        have hnot := List.head?_dropWhile_not (fun c => decide (c ≠ ';' ∧ c ≠ '\n')) t
        rw [← hu, hc] at hnot
        by_contra hcontra
        rw [not_or] at hcontra
        simp [hcontra.1, hcontra.2] at hnot
      have hres : attachType name s = typeOf name t t.length (typeText s).length := by
        rw [attachType_eq, htype]
        rfl
      have hpairs : pairs name s = (s, s.length) :: (t, t.length) :: (u, u.length) ::
          if u.length = 0 ∨ u.head? = some '\n' then []
          else attrPairs name (t.length + 1) u.tail (u.length - 1) := by
        rw [pairs, htype]
        dsimp only
        rw [hdrop, hlen, htail]
      rw [typeOf, htake, hlen, hdrop, htail] at hres
      have hplain (hend : u.length = 0 ∨ u.head? = some '\n') (hfirst : firstAttr s = none) :
          Way name s := by
        rw [if_pos hend] at hres hpairs
        refine .plain hfirst ?_ hres
        rw [hpairs]
        simp
      clear_value u
      cases u with
      | nil => exact hplain (.inl rfl) (by rw [hfirst]; rfl)
      | cons c w =>
        rcases hhead c rfl with rfl | rfl
        · have hin : ¬((';' :: w).length = 0 ∨ (';' :: w).head? = some '\n') := by simp
          rw [if_neg hin] at hres hpairs
          refine .attrs w t.length hfirst ?_ ?_ hres
          · intro p hp
            rw [hpairs] at hp
            simp only [List.mem_cons] at hp
            rcases hp with rfl | rfl | rfl | hp
            · exact .inl rfl
            · exact .inl rfl
            · exact .inl rfl
            · exact .inr hp
          · intro p hp
            rw [hpairs]
            exact List.mem_cons_of_mem _ (List.mem_cons_of_mem _ (List.mem_cons_of_mem _ hp))
        · exact hplain (.inr rfl) (by rw [hfirst]; rfl)

/-! ## The first pass -/

section

variable {name w key v : List Char}

/-- The attribute that is looked for. -/
theorem attrPass_same (ht : w.dropWhile isSpace = name ++ '=' :: v) (heq : '=' ∉ name)
    (hnl : '\n' ∉ name) :
    attrPass name w w.length =
      (attrValue v (v.takeWhile (· ≠ '\n')).length).map fun value => .inl (some value) := by
  have hdrop : (name ++ '=' :: v).drop (name.length + 1) = v := by
    simp [List.drop_append]
  have hlen : (name ++ '=' :: v.takeWhile (· ≠ '\n')).length - (name.length + 1) =
      (v.takeWhile (· ≠ '\n')).length := by
    rw [List.length_append, List.length_cons]
    omega
  rw [attrPass_exact]
  simp only [ht, line_key hnl]
  rw [if_neg (by simp), if_neg (by simp), if_pos (takeWhile_ne heq _), hdrop, hlen]

/-- Another attribute: it is the last one when there is no semicolon in its line. -/
theorem attrPass_other (ht : w.dropWhile isSpace = key ++ '=' :: v) (heq : '=' ∉ key)
    (hnl : '\n' ∉ key) (hne : key ≠ name) :
    attrPass name w w.length =
      if ';' ∉ (w.dropWhile isSpace).takeWhile (· ≠ '\n') then .ok (.inl none)
      else .ok (.inr ((w.dropWhile isSpace).drop
        ((((w.dropWhile isSpace).takeWhile (· ≠ '\n')).takeWhile (· ≠ ';')).length + 1),
        (w.dropWhile isSpace).length)) := by
  have hkey : ((w.dropWhile isSpace).takeWhile (· ≠ '\n')).takeWhile (· ≠ '=') = key := by
    rw [ht, line_key hnl, takeWhile_ne heq]
  have hmem : '=' ∈ (w.dropWhile isSpace).takeWhile (· ≠ '\n') := by
    rw [ht, line_key hnl]
    simp
  have ht' : w.dropWhile isSpace ≠ [] := by
    rw [ht]
    simp
  rw [attrPass_exact]
  simp only
  rw [if_neg ht', if_neg (not_not.mpr hmem), hkey, if_neg hne]

/-- The pass is the last one when the first attribute decides, and it reads within the mail. -/
theorem attrPass_decides (h : Decides name (w.dropWhile isSpace)) :
    (∀ p, attrPass name w w.length ≠ .ok (.inr p)) ∧
      attrPass name w w.length ≠ .error .behind := by
  set t := w.dropWhile isSpace with ht
  by_cases hmem : '=' ∈ t.takeWhile (· ≠ '\n')
  · have hdecides := h hmem
    obtain ⟨v, hv, heq, hnl⟩ := key_split hmem rfl
    set key := (t.takeWhile (· ≠ '\n')).takeWhile (· ≠ '=') with hkey
    by_cases hsame : key = name
    · rw [if_pos hsame, hv, hsame] at hdecides
      rw [hsame] at hv heq hnl
      have hvne : v ≠ [] := by
        rintro rfl
        exact hdecides.1 rfl
      have hval : attrValue v (v.takeWhile (· ≠ '\n')).length ≠ .error .behind := by
        rw [attrValue_exact]
        exact unquote_ne_behind hvne _
      rw [attrPass_same (ht.symm.trans hv) heq hnl]
      cases hres : attrValue v (v.takeWhile (· ≠ '\n')).length with
      | ok value => exact ⟨nofun, nofun⟩
      | error stop =>
        refine ⟨nofun, fun hb => hval ?_⟩
        rw [hres]
        cases hb
        rfl
    · rw [if_neg hsame] at hdecides
      rw [attrPass_other (ht.symm.trans hv) heq hnl hsame, ← ht, if_pos hdecides]
      exact ⟨nofun, nofun⟩
  · rw [attrPass_exact]
    simp only [← ht]
    split_ifs <;> exact ⟨nofun, nofun⟩

end

/-! ## Headers in the mail -/

theorem attrsText_head (as : List Attribute) {rest : List Char}
    (hrest : ∀ c ∈ rest.head?, c = '\n' ∨ c = ';') :
    ∀ c ∈ (attrsText as ++ rest).head?, c = '\n' ∨ c = ';' := by
  cases as with
  | nil => exact hrest
  | cons a as =>
    intro c hc
    right
    simpa [attrsText, eq_comm] using hc

namespace ContentTypeHeader

variable (h : ContentTypeHeader)

theorem isContentType_text : isContentType h.text = true := by
  have hstart := h.isStart.1
  have htake : h.text.take 13 = h.start := by
    rw [← h.isStart.2]
    exact List.take_left' rfl
  rw [isContentType, htake]
  rwa [isContentType, List.take_of_length_le h.isStart.2.le] at hstart

theorem text_type : (h.text.drop 13).dropWhile isSpace = h.type ++ (attrsText h.attrs ++ h.rest) := by
  have hdrop : h.text.drop 13 = h.white ++ (h.type ++ (attrsText h.attrs ++ h.rest)) := by
    rw [← h.isStart.2]
    exact List.drop_left' rfl
  rw [hdrop]
  apply dropWhile_stop h.isWhite
  intro c hc
  cases htype : h.type with
  | nil =>
    rw [htype] at hc
    cases hattrs : h.attrs with
    | nil => exact absurd hattrs (h.nonempty.resolve_left (not_not.mpr htype))
    | cons a as =>
      rw [hattrs] at hc
      have hsemi : ';' = c := by simpa [attrsText] using hc
      rw [← hsemi]
      decide
  | cons c' type =>
    rw [htype] at hc
    have hsame : c' = c := by simpa using hc
    apply h.type_start
    rw [htype, hsame]
    rfl

theorem type_chars : ∀ c ∈ h.type, decide (c ≠ ';' ∧ c ≠ '\n') = true := by
  intro c hc
  have hsemi : c ≠ ';' := fun heq => h.type_plain.1 (heq ▸ hc)
  have hnl : c ≠ '\n' := fun heq => h.type_plain.2 (heq ▸ hc)
  simp [hsemi, hnl]

theorem behind_type : ∀ c ∈ (attrsText h.attrs ++ h.rest).head?,
    decide (c ≠ ';' ∧ c ≠ '\n') = false := by
  intro c hc
  rcases attrsText_head h.attrs h.rest_start c hc with rfl | rfl <;> decide

theorem typeText_text : typeText h.text = h.type := by
  rw [typeText, h.text_type]
  exact takeWhile_stop h.type_chars h.behind_type

/-- The first attribute is where the loop starts. -/
theorem firstAttr_text {a : Attribute} {as : List Attribute} (hattrs : h.attrs = a :: as) :
    firstAttr h.text = some (a.name ++ '=' :: (a.valueText ++ (attrsText as ++ h.rest))) := by
  have hdrop : (h.type ++ (attrsText h.attrs ++ h.rest)).dropWhile
      (fun c => c ≠ ';' ∧ c ≠ '\n') = attrsText h.attrs ++ h.rest :=
    dropWhile_stop h.type_chars h.behind_type
  have hattr : attrsText h.attrs ++ h.rest =
      ';' :: (a.white ++ (a.name ++ '=' :: (a.valueText ++ (attrsText as ++ h.rest)))) := by
    simp [hattrs, attrsText]
  have hskip : (a.white ++ (a.name ++ '=' :: (a.valueText ++ (attrsText as ++ h.rest)))).dropWhile
      isSpace = a.name ++ '=' :: (a.valueText ++ (attrsText as ++ h.rest)) := by
    apply dropWhile_stop a.isWhite
    intro c hc
    cases hname : a.name with
    | nil =>
      rw [hname] at hc
      have heq : '=' = c := by simpa using hc
      rw [← heq]
      decide
    | cons c' t =>
      rw [hname] at hc
      have hsame : c' = c := by simpa using hc
      apply a.name_start
      rw [hname, hsame]
      rfl
  rw [hattr] at hdrop
  rw [firstAttr, h.isContentType_text, if_pos rfl, h.text_type, hattr]
  simp only [hdrop]
  rw [if_pos (by simp), List.tail_cons, hskip]

/-- Without attributes the loop is not entered. -/
theorem firstAttr_none (hattrs : h.attrs = []) (hwhole : h.Whole) : firstAttr h.text = none := by
  have hdrop : (h.type ++ (attrsText h.attrs ++ h.rest)).dropWhile
      (fun c => c ≠ ';' ∧ c ≠ '\n') = attrsText h.attrs ++ h.rest :=
    dropWhile_stop h.type_chars h.behind_type
  have hrest : (attrsText h.attrs ++ h.rest).head? ≠ some ';' := by
    rw [hattrs]
    exact hwhole
  rw [firstAttr, h.isContentType_text, if_pos rfl, h.text_type]
  simp only [hdrop, if_neg hrest]

end ContentTypeHeader

/-! ## When the header is read as it should be -/

/-- A line with another attribute in front of a semicolon is not the end of the list. -/
theorem semicolon_mem (a : Attribute) {more : List Char} (hmore : more.head? = some ';') :
    ';' ∈ (a.name ++ '=' :: (a.valueText ++ more)).takeWhile (· ≠ '\n') := by
  obtain ⟨more, rfl⟩ : ∃ t, more = ';' :: t := by
    cases more with
    | nil => cases hmore
    | cons c t =>
      cases hmore
      exact ⟨t, rfl⟩
  have hvalue : (a.valueText ++ ';' :: more).takeWhile (· ≠ '\n') =
      a.valueText ++ ';' :: more.takeWhile (· ≠ '\n') := by
    rw [List.takeWhile_append_of_pos (all_ne a.valueText_line),
      List.takeWhile_cons_of_pos (by decide)]
  rw [line_key a.name_plain.2.2, hvalue]
  simp

theorem equals_mem (a : Attribute) (more : List Char) :
    '=' ∈ (a.name ++ '=' :: more).takeWhile (· ≠ '\n') := by
  rw [line_key a.name_plain.2.2]
  simp

theorem key_eq (a : Attribute) (more : List Char) :
    ((a.name ++ '=' :: more).takeWhile (· ≠ '\n')).takeWhile (· ≠ '=') = a.name := by
  rw [line_key a.name_plain.2.2, takeWhile_ne a.name_plain.1]

section

variable {name s w : List Char} {fuel : ℕ}

/-- A pass with a value ends the loop. -/
theorem attachAttr_last {value : Option (List Char)}
    (h : attrPass name w w.length = .ok (.inl value)) :
    attachAttr name (fuel + 1) w w.length = .ok value := by
  rw [attachAttr_pass, h]
  rfl

/-- The attribute that is looked for is found when it is the first one. -/
theorem pass_first {a : Attribute} {more : List Char}
    (ht : w.dropWhile isSpace = a.name ++ '=' :: (a.valueText ++ more))
    (hmore : ∀ c ∈ more.head?, c = '\n' ∨ c = ';') (h : Decides a.name (w.dropWhile isSpace)) :
    attrPass a.name w w.length = .ok (.inl (some (Mail.cString a.value))) := by
  rw [ht] at h
  have hdecides := h (equals_mem a _)
  rw [if_pos (key_eq a _)] at hdecides
  have hne : a.valueText ++ more ≠ [] := by
    intro hnil
    rw [hnil] at hdecides
    exact hdecides.1 rfl
  have hsemi : ';' ∉ a.value := by
    have hplain := a.value_plain
    have hvalue : a.valueText = if a.quoted then '"' :: (a.value ++ ['"']) else a.value := rfl
    by_cases hq : a.quoted
    · rw [if_pos hq] at hplain hvalue
      exact hdecides.2 a.name_plain.2.1 a.value more (by simp [hvalue]) hplain a.value_line hmore
    · rw [if_neg hq] at hplain
      exact hplain.1
  rw [attrPass_same ht a.name_plain.1 a.name_plain.2.2, a.unquote_valueText hsemi hmore hne]
  rfl

/-- Another first attribute is the last one. -/
theorem pass_other {a : Attribute} {more : List Char}
    (ht : w.dropWhile isSpace = a.name ++ '=' :: (a.valueText ++ more)) (hne : a.name ≠ name)
    (h : Decides name (w.dropWhile isSpace)) :
    attrPass name w w.length = .ok (.inl none) ∧ more.head? ≠ some ';' := by
  rw [attrPass_other ht a.name_plain.1 a.name_plain.2.2 hne]
  rw [ht] at h ⊢
  have hdecides := h (equals_mem a _)
  rw [if_neg (by rwa [key_eq])] at hdecides
  exact ⟨if_pos hdecides, fun hmore => hdecides (semicolon_mem a hmore)⟩

/-- When the first attribute decides, all is as it should be. -/
theorem readsAttribute_of_decides (h : ∀ t ∈ firstAttr s, Decides name t) :
    ReadsAttribute name s := by
  have hends : attachType name s ≠ .error .fuel := attachType_ne_fuel name s
  cases way name s with
  | failed hfirst hpairs hno hres =>
    have hnot (hd : ContentTypeHeader) (hs : s = hd.text) : False := by
      rw [hs] at hno
      rcases hno with hno | hno
      · rw [hd.isContentType_text] at hno
        cases hno
      · rw [hd.text_type] at hno
        obtain ⟨htype, hmore⟩ := List.append_eq_nil_iff.mp hno
        cases hattrs : hd.attrs with
        | nil => exact hd.nonempty.elim (· htype) (· hattrs)
        | cons a as =>
          rw [hattrs] at hmore
          cases hmore
    refine ⟨by simp [hpairs], by simp [hres], hends, ?_, ?_, ?_⟩
    · intro type value hok
      rw [hres] at hok
      cases hok
    · exact fun hd hs => (hnot hd hs).elim
    · exact fun hd hs => (hnot hd hs).elim
  | plain hfirst hpairs hres =>
    refine ⟨hpairs, by simp [hres], hends, ?_, ?_, ?_⟩
    · intro type value hok
      rw [hres] at hok
      cases hok
      rfl
    · rintro hd rfl a ha
      -- the loop would be entered
      cases hattrs : hd.attrs with
      | nil =>
        rw [ContentTypeHeader.attr, hattrs] at ha
        cases ha
      | cons b bs =>
        rw [hd.firstAttr_text hattrs] at hfirst
        cases hfirst
    · rintro hd rfl - -
      rw [hres, hd.typeText_text]
  | attrs w fuel hfirst hpairs hloop hres =>
    have hdecides : Decides name (w.dropWhile isSpace) := h _ hfirst
    obtain ⟨hlast, hinside⟩ := attrPass_decides hdecides
    have hheads : attrPairs name (fuel + 1) w w.length = [(w, w.length)] := by
      rw [attrPairs]
      cases hpass : attrPass name w w.length with
      | error stop => rfl
      | ok r =>
        cases r with
        | inl value => rfl
        | inr p => exact absurd hpass (hlast p)
    refine ⟨?_, ?_, hends, ?_, ?_, ?_⟩
    · intro p hp
      rcases hpairs p hp with hp | hp
      · exact hp
      · rw [hheads, List.mem_singleton] at hp
        rw [hp]
    · rw [hres, attachAttr_pass]
      cases hpass : attrPass name w w.length with
      | error stop =>
        intro hbehind
        apply hinside
        rw [hpass]
        cases hbehind
        rfl
      | ok r =>
        cases r with
        | inl value => nofun
        | inr p => exact absurd hpass (hlast p)
    · intro type value hok
      rw [hres] at hok
      cases hattr : attachAttr name (fuel + 1) w w.length with
      | error stop =>
        rw [hattr] at hok
        cases hok
      | ok value =>
        rw [hattr] at hok
        cases hok
        rfl
    · rintro hd rfl a ha
      cases hattrs : hd.attrs with
      | nil =>
        rw [ContentTypeHeader.attr, hattrs] at ha
        cases ha
      | cons b bs =>
        have ht := Option.some.inj (hfirst.symm.trans (hd.firstAttr_text hattrs))
        rw [ContentTypeHeader.attr, hattrs] at ha
        by_cases hb : b.name = name
        · rw [List.find?_cons_of_pos (by simpa using hb)] at ha
          cases ha
          subst hb
          rw [hres, attachAttr_last (pass_first ht (attrsText_head bs hd.rest_start) hdecides),
            hd.typeText_text]
          rfl
        · have hmore := (pass_other ht hb hdecides).2
          rw [List.find?_cons_of_neg (by simpa using hb)] at ha
          cases bs with
          | nil => cases ha
          | cons c cs => exact absurd rfl hmore
    · rintro hd rfl hwhole habsent
      cases hattrs : hd.attrs with
      | nil =>
        rw [hd.firstAttr_none hattrs hwhole] at hfirst
        cases hfirst
      | cons b bs =>
        have ht := Option.some.inj (hfirst.symm.trans (hd.firstAttr_text hattrs))
        rw [ContentTypeHeader.attr, hattrs] at habsent
        have hb : b.name ≠ name := by
          intro hb
          rw [List.find?_cons_of_pos (by simpa using hb)] at habsent
          cases habsent
        rw [hres, attachAttr_last (pass_other ht hb hdecides).1, hd.typeText_text]
        rfl


theorem attrPairs_head (fuel : ℕ) (s : List Char) (len : ℕ) : (s, len) ∈ attrPairs name fuel s len := by
  cases fuel with
  | zero => exact List.mem_singleton_self _
  | succ fuel => exact List.mem_cons_self

theorem dropWhile_start (s : List Char) : ∀ c ∈ (s.dropWhile isSpace).head?, isSpace c = false := by
  intro c hc
  have hnot := List.head?_dropWhile_not isSpace s
  rw [hc] at hnot
  exact hnot

/-- The header in front of a first attribute that is quoted. -/
theorem header_of_firstAttr {value rest : List Char}
    (h : firstAttr s = some (name ++ '=' :: '"' :: (value ++ '"' :: rest))) (heq : '=' ∉ name)
    (hnl : '\n' ∉ name) (hsemi : ';' ∉ name) (hquote : '"' ∉ value) (hline : '\n' ∉ value)
    (hrest : ∀ c ∈ rest.head?, c = '\n' ∨ c = ';') :
    ∃ hd : ContentTypeHeader, s = hd.text ∧ (hd.attr name).isSome := by
  cases hstart : isContentType s with
  | false =>
    rw [firstAttr, hstart] at h
    cases h
  | true =>
    rw [firstAttr, hstart, if_pos rfl] at h
    set t := (s.drop 13).dropWhile isSpace with ht
    set u := t.dropWhile fun c => c ≠ ';' ∧ c ≠ '\n' with hu
    by_cases hhead : u.head? = some ';'
    · rw [if_pos hhead, Option.some_inj] at h
      obtain ⟨more, hmore⟩ : ∃ more, u = ';' :: more := by
        cases hcons : u with
        | nil =>
          rw [hcons] at hhead
          cases hhead
        | cons c more =>
          rw [hcons] at hhead
          cases hhead
          exact ⟨more, rfl⟩
      rw [hmore, List.tail_cons] at h
      have hlen : (s.take 13).length = 13 := by
        have hlower := congrArg List.length (of_decide_eq_true hstart)
        rw [List.length_map] at hlower
        exact hlower
      have hnames : ∀ c ∈ name.head?, isSpace c = false := by
        intro c hc
        apply dropWhile_start more
        rw [h]
        cases hname : name with
        | nil =>
          rw [hname] at hc
          cases hc
        | cons c' n =>
          rw [hname] at hc
          exact hc
      have hspaces (x : List Char) : ∀ c ∈ x.takeWhile isSpace, isSpace c = true := fun c hc =>
        List.mem_takeWhile_imp hc
      let a : Attribute :=
        { white := more.takeWhile isSpace, name := name, value := value, quoted := true,
          isWhite := hspaces more, name_plain := ⟨heq, hsemi, hnl⟩, name_start := hnames,
          value_line := hline, value_plain := hquote }
      have htype : ∀ c ∈ typeText s, c ≠ ';' ∧ c ≠ '\n' := fun c hc =>
        of_decide_eq_true (List.mem_takeWhile_imp (p := fun c => decide (c ≠ ';' ∧ c ≠ '\n')) hc)
      let hd : ContentTypeHeader :=
        { start := s.take 13, white := (s.drop 13).takeWhile isSpace, type := typeText s,
          attrs := [a], rest := rest,
          isStart := ⟨by rwa [isContentType, List.take_take, Nat.min_self, ← isContentType], hlen⟩,
          isWhite := hspaces _,
          type_plain := ⟨fun hc => (htype _ hc).1 rfl, fun hc => (htype _ hc).2 rfl⟩,
          type_start := by
            intro c hc
            apply dropWhile_start (s.drop 13)
            have hsplit : t = typeText s ++ u := List.takeWhile_append_dropWhile.symm
            rw [← ht, hsplit]
            cases htext : typeText s with
            | nil =>
              rw [htext] at hc
              cases hc
            | cons c' n =>
              rw [htext] at hc
              exact hc
          nonempty := .inr nofun, rest_start := hrest }
      refine ⟨hd, ?_, ?_⟩
      · have hvalue : attrsText [a] ++ rest = ';' :: more := by
          conv_rhs => rw [← List.takeWhile_append_dropWhile (p := isSpace) (l := more), h]
          simp [attrsText, Attribute.valueText, a]
        have hu' : typeText s ++ (attrsText [a] ++ rest) = t := by
          rw [hvalue, ← hmore]
          exact List.takeWhile_append_dropWhile
        show s = s.take 13 ++ ((s.drop 13).takeWhile isSpace ++ (typeText s ++ (attrsText [a] ++ rest)))
        rw [hu', ht, List.takeWhile_append_dropWhile, List.take_append_drop]
      · show (List.find? (fun b => decide (b.name = name)) [a]).isSome
        rw [List.find?_cons_of_pos (by simp [a])]
        rfl
    · rw [if_neg hhead] at h
      cases h

/-- And only then. -/
theorem decides_of_readsAttribute (h : ReadsAttribute name s) : ∀ t ∈ firstAttr s, Decides name t := by
  intro t ht hmem
  cases way name s with
  | failed hfirst hpairs hno hres =>
    rw [hfirst] at ht
    cases ht
  | plain hfirst hpairs hres =>
    rw [hfirst] at ht
    cases ht
  | attrs w fuel hfirst hpairs hloop hres =>
    have ht' : w.dropWhile isSpace = t := Option.some.inj (hfirst.symm.trans ht)
    obtain ⟨v, hv, heq, hnl⟩ := key_split hmem rfl
    set key := (t.takeWhile (· ≠ '\n')).takeWhile (· ≠ '=') with hkey
    by_cases hsame : key = name
    · rw [if_pos hsame]
      rw [hsame] at hv heq hnl
      have hpass := attrPass_same (ht'.trans hv) heq hnl
      have hstop (stop : Stop) (hvalue : attrValue v (v.takeWhile (· ≠ '\n')).length = .error stop) :
          attachType name s = .error stop := by
        rw [hres, attachAttr_pass, hpass, hvalue]
        rfl
      refine ⟨?_, ?_⟩
      · intro hend
        rw [hend] at hv
        have hnil : v = [] := by simpa using hv.symm
        apply h.inside
        apply hstop
        rw [hnil, attrValue_exact, unquote, if_pos rfl]
      · intro hsemi value rest hquoted hquote hline hrest hmem'
        have hv' : v = '"' :: (value ++ '"' :: rest) := by
          rw [hquoted] at hv
          simpa using hv.symm
        rw [hfirst, ht', hquoted] at ht
        rw [ht', hquoted] at hfirst
        obtain ⟨hd, hs, hattr⟩ :=
          header_of_firstAttr hfirst heq hnl hsemi hquote hline hrest
        obtain ⟨a, ha⟩ := Option.isSome_iff_exists.mp hattr
        have hfound := h.found hd hs a ha
        have hfailed := hstop .failed (by
          rw [hv']
          exact Attribute.unquote_semicolon hquote hline hmem' rest)
        rw [hfailed] at hfound
        cases hfound
    · rw [if_neg hsame]
      intro hsemi
      have hpass := attrPass_other (ht'.trans hv) heq hnl hsame
      rw [ht', if_neg (not_not.mpr hsemi)] at hpass
      have hbad : (t.drop (((t.takeWhile (· ≠ '\n')).takeWhile (· ≠ ';')).length + 1), t.length) ∈
          pairs name s := by
        apply hloop
        rw [attrPairs, hpass]
        exact List.mem_cons_of_mem _ (attrPairs_head _ _ _)
      -- `len` is more than what is left
      have hexact := h.exact _ hbad
      have hpos : t.length ≠ 0 := by
        rw [hv]
        simp
      rw [List.length_drop] at hexact
      omega

end

/-- A Content-Type header is read as it should be, and within the mail, exactly if the loop over
the attributes is not entered or the first attribute decides. -/
theorem readsAttribute_iff {α : Type} (m : Mail α) (hdr : ℕ) (name : List Char) :
    ReadsAttribute name (m.data.drop hdr) ↔
      ∀ t ∈ firstAttr (m.data.drop hdr), Decides name t :=
  ⟨decides_of_readsAttribute, readsAttribute_of_decides⟩

/-- A mail that ends with the second attribute of its header. -/
def twoAttributes : List Char :=
  contentType ++ [':', ' ', 'a', ';', ' ', 'b', '=', 'c', ';', ' ', 'd']

/-- At the second attribute of a header `hdr` and `len` reach behind the end of the mail, and what
is there is read. -/
theorem twoAttributes_behind :
    ¬ (∀ (m : Mail Unit) (hdr : ℕ) (name : List Char), ReadsAttribute name (m.data.drop hdr)) := by
  intro h
  have hinside := (h { data := twoAttributes } 0 boundaryAttr).inside
  exact hinside (by decide)

end Fdm.Attach
