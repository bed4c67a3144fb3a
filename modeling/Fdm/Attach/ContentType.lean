import Fdm.Attach.Message

/-!
# Reading Content-Type headers

What `attach_type` makes of the header of a part: the type, and the value of the attribute it is
asked for unless the value has a semicolon in it.
-/

namespace Fdm.Attach

open Lib.Scanf

/-! ## Searching -/

theorem memchr_found {c : Char} {s : List Char} (hs : c ∉ s) (t : List Char) {len : ℕ}
    (hlen : s.length < len) : memchr c (s ++ c :: t) len = .ok (some s.length) := by
  have htake : (s ++ c :: t).take len = s ++ c :: t.take (len - s.length - 1) := by
    rw [List.take_append, List.take_of_length_le (by omega)]
    congr 1
    rw [show len - s.length = len - s.length - 1 + 1 by omega, List.take_succ_cons]
    congr 1
  have hfind : (s ++ c :: t.take (len - s.length - 1)).findIdx? (· = c) = some s.length := by
    rw [List.findIdx?_append, List.findIdx?_eq_none_iff.mpr fun x hx => ?_]
    · simp [List.findIdx?_cons]
    · simpa using fun h : x = c => hs (h ▸ hx)
  rw [memchr, htake, hfind]

theorem memchr_absent {c : Char} {s : List Char} {len : ℕ} (hs : c ∉ s.take len)
    (hlen : len ≤ s.length) : memchr c s len = .ok none := by
  have hfind : (s.take len).findIdx? (· = c) = none := by
    rw [List.findIdx?_eq_none_iff]
    intro x hx
    simpa using fun h : x = c => hs (h ▸ hx)
  rw [memchr, hfind]
  exact if_pos hlen

/-! ## Values -/

/-- A value between quotes. -/
theorem unquote_quoted {value : List Char} (h : '\x00' ∉ value) (more : List Char) :
    unquote ('"' :: value ++ '"' :: more) (value.length + 2) = .ok value := by
  have htake : (('"' :: value ++ '"' :: more).drop 1).take (value.length + 2 - 2) = value := by
    simp
  rw [unquote, if_neg (by simp), if_pos (by simp), if_neg (by simp), htake, Mail.cString_eq h]

/-- A value that is cut before its last quote. -/
theorem unquote_cut {start : List Char} (h : '"' ∉ start) (more : List Char) :
    unquote ('"' :: start ++ more) (start.length + 1) = .error .failed := by
  rw [unquote, if_neg (by simp), if_pos (by simp), if_pos]
  rcases List.eq_nil_or_concat start with rfl | ⟨rest, c, rfl⟩
  · exact .inl (by simp)
  · right
    have hc : c ≠ '"' := fun heq => h (by simp [heq])
    rw [List.concat_eq_append] at *
    rw [List.getElem?_append_left (by simp)]
    simpa using hc

/-- A value between quotes, at the end of a line. -/
theorem attrValue_quoted {value : List Char} (h : Part.Quotable value) (more : List Char) :
    attrValue ('"' :: value ++ '"' :: more) (value.length + 2) =
      if ';' ∈ value then .error .failed else .ok value := by
  by_cases hsemi : ';' ∈ value
  · -- the line is cut at the first semicolon, in front of which there is no quote
    obtain ⟨start, rest, rfl, hstart⟩ := List.eq_append_cons_of_mem hsemi
    have hnot : ';' ∉ '"' :: start := by simpa using hstart
    have hquote : '"' ∉ start := fun hmem => h.1 (List.mem_append_left _ hmem)
    have hsplit : '"' :: (start ++ ';' :: rest) ++ '"' :: more =
        '"' :: start ++ ';' :: (rest ++ '"' :: more) := by
      simp
    rw [if_pos hsemi, attrValue, hsplit, memchr_found hnot _
      (by simp only [List.length_cons, List.length_append]; omega)]
    exact unquote_cut hquote _
  · have habsent : ';' ∉ ('"' :: value ++ '"' :: more).take (value.length + 2) := by
      simpa [List.take_append] using fun hmem => hsemi (List.mem_of_mem_take hmem)
    rw [if_neg hsemi, attrValue, memchr_absent habsent (by simp)]
    exact unquote_quoted h.2.2 more

/-! ## Attributes -/

theorem skipSpaces_stop {c : Char} (h : isSpace c = false) (s : List Char) (len : ℕ) :
    skipSpaces (c :: s) (len + 1) = .ok (c :: s, len + 1) := by
  rw [skipSpaces, if_neg (by simp [h])]

theorem skipSpaces_space (s : List Char) (len : ℕ) :
    skipSpaces (' ' :: s) (len + 1) = skipSpaces s len := by
  rw [skipSpaces, if_pos (by decide)]

/-- The name of an attribute. -/
structure IsName (key : List Char) : Prop where
  start : ∃ c t, key = c :: t ∧ isSpace c = false
  plain : '=' ∉ key ∧ ';' ∉ key ∧ '\n' ∉ key

/-- An attribute at the end of a header, and what comes behind the header. -/
def attrLine (key value more : List Char) : List Char :=
  key ++ '=' :: ('"' :: value ++ '"' :: '\n' :: more)

section

variable {key value : List Char} (hkey : IsName key) (hvalue : Part.Quotable value)
  (name more : List Char) (fuel : ℕ)

include hkey hvalue

/-- The first pass of the loop over the attributes. -/
theorem attachAttr_line :
    attachAttr name (fuel + 1) (' ' :: attrLine key value more) ((attrLine key value more).length + 1) =
      if key = name then (attrValue ('"' :: value ++ '"' :: '\n' :: more) (value.length + 2)).map some
      else
        (memchr ';' (attrLine key value more) (key.length + value.length + 3)).bind fun
          | none => .ok none
          | some j => attachAttr name fuel ((attrLine key value more).drop (j + 1))
              (attrLine key value more).length := by
  obtain ⟨c, t, hc, hspace⟩ := hkey.start
  have hskip : skipSpaces (' ' :: attrLine key value more) ((attrLine key value more).length + 1) =
      .ok (attrLine key value more, (attrLine key value more).length) := by
    rw [skipSpaces_space, attrLine, hc]
    exact skipSpaces_stop hspace _ _
  have hline : attrLine key value more =
      (key ++ '=' :: '"' :: value ++ ['"']) ++ '\n' :: more := by
    simp [attrLine]
  have hnl : memchr '\n' (attrLine key value more) (attrLine key value more).length =
      .ok (some (key.length + value.length + 3)) := by
    have hnot : '\n' ∉ key ++ '=' :: '"' :: value ++ ['"'] := by
      simp [hkey.plain.2.2, hvalue.2.1]
    have hlen : (key ++ '=' :: '"' :: value ++ ['"']).length = key.length + value.length + 3 := by
      simp
      omega
    rw [← hlen, hline]
    exact memchr_found hnot more (by simp)
  have heq : memchr '=' (attrLine key value more) (key.length + value.length + 3) =
      .ok (some key.length) :=
    memchr_found hkey.plain.1 _ (by omega)
  have hpos : (attrLine key value more).length ≠ 0 := by simp [attrLine]
  have hdrop : (attrLine key value more).drop (key.length + 1) =
      '"' :: value ++ '"' :: '\n' :: more := by
    simp [attrLine, List.drop_append]
  have hname : (key.length = name.length ∧ (attrLine key value more).take name.length = name) ↔
      key = name := by
    constructor
    · rintro ⟨hlen, htake⟩
      rwa [← hlen, attrLine, List.take_left'] at htake
      rfl
    · rintro rfl
      exact ⟨rfl, List.take_left' rfl⟩
  have hleft : key.length + value.length + 3 - (key.length + 1) = value.length + 2 := by omega
  rw [attachAttr, hskip]
  -- both sides look at what is behind the attribute
  rcases hsemi : memchr ';' (attrLine key value more) (key.length + value.length + 3) with
    _ | _ | _
  all_goals
    simp only [Except.bind, if_neg hpos, hnl, Option.getD_some, heq, hname, hdrop, hleft, hsemi]

/-- The attribute that is looked for. -/
theorem attachAttr_same :
    attachAttr key (fuel + 1) (' ' :: attrLine key value more)
      ((attrLine key value more).length + 1) =
        if ';' ∈ value then .error .failed else .ok (some value) := by
  rw [attachAttr_line hkey hvalue, if_pos rfl, attrValue_quoted hvalue]
  split_ifs <;> rfl

/-- Another attribute. -/
theorem attachAttr_other (hne : key ≠ name) (hsemi : ';' ∉ value) :
    attachAttr name (fuel + 1) (' ' :: attrLine key value more)
      ((attrLine key value more).length + 1) = .ok none := by
  have habsent : ';' ∉ (attrLine key value more).take (key.length + value.length + 3) := by
    rw [show attrLine key value more = (key ++ '=' :: '"' :: value ++ ['"']) ++ '\n' :: more by
      simp [attrLine], List.take_left' (by simp; omega)]
    simp [hkey.plain.2.1, hsemi]
  rw [attachAttr_line hkey hvalue, if_neg hne,
    memchr_absent habsent (by simp [attrLine]; omega)]
  rfl

end

/-! ## Headers -/

theorem isContentType_header (s : List Char) : isContentType (headerStart ++ s) = true := by
  simp [isContentType, headerStart, contentType]

/-- The type in a header, and where its attributes are. -/
theorem attachType_header {type : List Char} (h : Part.IsType type) (name attr more : List Char)
    (hattr : '\n' ∉ attr) :
    attachType name (headerStart ++ type ++ attr ++ '\n' :: more) =
      (memchr ';' (type ++ attr ++ '\n' :: more) (type.length + attr.length)).bind fun semi =>
        typeOf name (type ++ attr ++ '\n' :: more) (type ++ attr ++ '\n' :: more).length
          (semi.getD (type.length + attr.length)) := by
  obtain ⟨c, t, hc, hspace⟩ := h.start
  have hdrop : (headerStart ++ type ++ attr ++ '\n' :: more).drop 13 =
      ' ' :: (type ++ attr ++ '\n' :: more) := by
    simp [headerStart]
  have hlen : (headerStart ++ type ++ attr ++ '\n' :: more).length - 13 =
      (type ++ attr ++ '\n' :: more).length + 1 := by
    simp [headerStart]
  have hskip : skipSpaces (' ' :: (type ++ attr ++ '\n' :: more))
      ((type ++ attr ++ '\n' :: more).length + 1) =
        .ok (type ++ attr ++ '\n' :: more, (type ++ attr ++ '\n' :: more).length) := by
    rw [skipSpaces_space, hc]
    exact skipSpaces_stop hspace _ _
  have hnl : memchr '\n' (type ++ attr ++ '\n' :: more) (type ++ attr ++ '\n' :: more).length =
      .ok (some (type.length + attr.length)) := by
    have hnot : '\n' ∉ type ++ attr := by simp [h.plain.2.1, hattr]
    rw [← List.length_append]
    exact memchr_found hnot more (by simp)
  have hstart : isContentType (headerStart ++ type ++ attr ++ '\n' :: more) = true := by
    rw [List.append_assoc, List.append_assoc]
    exact isContentType_header _
  have hpos : (type ++ attr ++ '\n' :: more).length ≠ 0 := by simp
  rw [attachType, hstart, hdrop, hlen, hskip]
  simp only [Except.bind, Bool.not_true, Bool.false_eq_true, if_false, if_neg hpos, hnl,
    Option.getD_some]

/-- A header without attributes. -/
theorem attachType_plain {type : List Char} (h : Part.IsType type) (name more : List Char) :
    attachType name (contentTypeLine type [] ++ more) = .ok (type, none) := by
  have habsent : ';' ∉ (type ++ '\n' :: more).take type.length := by
    simpa using h.plain.1
  have hheader := attachType_header h name [] more (by simp)
  simp only [List.append_nil, List.length_nil, Nat.add_zero] at hheader
  rw [contentTypeLine, newline, List.append_nil, List.append_assoc, List.singleton_append, hheader,
    memchr_absent habsent (by simp)]
  simp [Except.bind, typeOf, Mail.cString_eq h.plain.2.2]

/-- A header with an attribute. -/
theorem attachType_attr {type key value : List Char} (h : Part.IsType type) (hkey : IsName key)
    (hvalue : Part.Quotable value) (name more : List Char) :
    ∃ fuel, attachType name (contentTypeLine type (attrText key value) ++ more) =
      (attachAttr name (fuel + 1) (' ' :: attrLine key value more)
        ((attrLine key value more).length + 1)).map fun value => (type, value) := by
  have hattr : '\n' ∉ attrText key value := by
    simp [attrText, hkey.plain.2.2, hvalue.2.1]
  have hline : attrText key value ++ '\n' :: more = ';' :: ' ' :: attrLine key value more := by
    simp [attrText, attrLine]
  have hsemi : memchr ';' (type ++ attrText key value ++ '\n' :: more)
      (type.length + (attrText key value).length) = .ok (some type.length) := by
    rw [List.append_assoc, hline]
    exact memchr_found h.plain.1 _ (by simp [attrText])
  refine ⟨(type ++ attrText key value ++ '\n' :: more).length, ?_⟩
  rw [contentTypeLine, newline, List.append_assoc, List.singleton_append,
    attachType_header h name _ more hattr, hsemi]
  simp only [Except.bind, Option.getD_some, List.append_assoc, hline, typeOf]
  have htlen : (type ++ ';' :: ' ' :: attrLine key value more).length - type.length - 1 =
      (attrLine key value more).length + 1 := by
    simp
  rw [if_neg (by simp), List.take_left' rfl, Mail.cString_eq h.plain.2.2, htlen]
  congr 2
  simp [List.drop_append]

theorem isName_nameAttr : IsName nameAttr where
  start := ⟨_, _, rfl, by decide⟩
  plain := by decide

theorem isName_boundaryAttr : IsName boundaryAttr where
  start := ⟨_, _, rfl, by decide⟩
  plain := by decide

/-- The name in the header of a leaf. -/
theorem attachType_leaf {type : List Char} {name : Option (List Char)} (h : Part.IsType type)
    (hname : ∀ value ∈ name, Part.Quotable value) (body : List (List Char)) (more : List Char) :
    attachType nameAttr ((Part.leaf type name body).header ++ more) =
      if ∃ value ∈ name, ';' ∈ value then .error .failed else .ok (type, name) := by
  cases name with
  | none =>
    rw [if_neg (by simp)]
    exact attachType_plain h nameAttr more
  | some value =>
    obtain ⟨fuel, hfuel⟩ := attachType_attr h isName_nameAttr (hname value rfl) nameAttr more
    rw [attachAttr_same isName_nameAttr (hname value rfl)] at hfuel
    rw [Part.header, Option.elim_some, hfuel]
    by_cases hsemi : ';' ∈ value
    · rw [if_pos hsemi, if_pos ⟨value, rfl, hsemi⟩]
      rfl
    · rw [if_neg hsemi, if_neg (by simpa using hsemi)]
      rfl

theorem type_of_attr {type key value : List Char} (h : Part.IsType type) (hkey : IsName key)
    (hvalue : Part.Quotable value) {name more type' : List Char} {value' : Option (List Char)}
    (hok : attachType name (contentTypeLine type (attrText key value) ++ more) =
      .ok (type', value')) : type' = type := by
  obtain ⟨fuel, hfuel⟩ := attachType_attr h hkey hvalue name more
  rw [hfuel] at hok
  cases hattr : attachAttr name (fuel + 1) (' ' :: attrLine key value more)
      ((attrLine key value more).length + 1) with
  | error stop =>
    rw [hattr] at hok
    cases hok
  | ok value =>
    rw [hattr] at hok
    cases hok
    rfl

/-- The type in the header of a part, whatever attribute is looked for. -/
theorem type_of_part {p : Part} (h : p.InOrder) {name more type' : List Char}
    {value : Option (List Char)} (hok : attachType name (p.header ++ more) = .ok (type', value)) :
    isMultipart type' = !p.isLeaf := by
  cases p with
  | leaf type pname body =>
    obtain ⟨htype, hleaf, hname⟩ := h
    have hsame : type' = type := by
      cases pname with
      | none =>
        rw [Part.header, Option.elim_none, attachType_plain htype] at hok
        cases hok
        rfl
      | some v => exact type_of_attr htype isName_nameAttr (hname v rfl) hok
    rw [hsame, hleaf]
    rfl
  | multipart type b ps epilogue =>
    obtain ⟨htype, hmulti, hb, -⟩ := h
    rw [type_of_attr htype isName_boundaryAttr hb hok, hmulti]
    rfl

/-- The boundary in the header of a multipart. -/
theorem attachType_boundary {type boundary : List Char} (h : Part.IsType type)
    (hb : Part.Quotable boundary) (children : List Part) (epilogue : List (List Char))
    (more : List Char) :
    attachType boundaryAttr ((Part.multipart type boundary children epilogue).header ++ more) =
      if ';' ∈ boundary then .error .failed else .ok (type, some boundary) := by
  obtain ⟨fuel, hfuel⟩ := attachType_attr h isName_boundaryAttr hb boundaryAttr more
  rw [attachAttr_same isName_boundaryAttr hb] at hfuel
  rw [Part.header, hfuel]
  split_ifs <;> rfl

/-- The header of a multipart has no name. -/
theorem attachType_multipart {type boundary : List Char} (h : Part.IsType type)
    (hb : Part.Quotable boundary) (hsemi : ';' ∉ boundary) (children : List Part)
    (epilogue : List (List Char)) (more : List Char) :
    attachType nameAttr ((Part.multipart type boundary children epilogue).header ++ more) =
      .ok (type, none) := by
  obtain ⟨fuel, hfuel⟩ := attachType_attr h isName_boundaryAttr hb nameAttr more
  rw [attachAttr_other isName_boundaryAttr hb _ _ _ (by decide) hsemi] at hfuel
  rw [Part.header, hfuel]
  rfl

/-! ## The bounds -/

theorem bind_ne_fuel {α β : Type} {x : Read α} {f : α → Read β} (hx : x ≠ .error .fuel)
    (hf : ∀ a, x = .ok a → f a ≠ .error .fuel) : x.bind f ≠ .error .fuel := by
  cases x with
  | error stop => exact fun h => hx (by simpa [Except.bind] using h)
  | ok a => exact hf a rfl

theorem map_ne_fuel {α β : Type} {x : Read α} (f : α → β) (hx : x ≠ .error .fuel) :
    x.map f ≠ .error .fuel := by
  cases x with
  | error stop => simpa [Except.map] using hx
  | ok a => nofun

theorem memchr_ne_fuel (c : Char) (s : List Char) (len : ℕ) : memchr c s len ≠ .error .fuel := by
  unfold memchr
  split
  · nofun
  · split_ifs <;> nofun

theorem attrValue_ne_fuel (s : List Char) (llen : ℕ) : attrValue s llen ≠ .error .fuel := by
  refine bind_ne_fuel (memchr_ne_fuel _ _ _) fun semi _ => ?_
  unfold unquote
  split_ifs <;> nofun

/-- White space is skipped forwards. -/
theorem skipSpaces_spec (s : List Char) (len : ℕ) :
    skipSpaces s len ≠ .error .fuel ∧
      ∀ s' len', skipSpaces s len = .ok (s', len') → s'.length ≤ s.length ∧
        (len' ≠ 0 → s' ≠ []) := by
  induction s, len using skipSpaces.induct with
  | case1 s =>
    simp [skipSpaces]
  | case2 => simp [skipSpaces]
  | case3 c s len hspace ih =>
    rw [skipSpaces, if_pos hspace]
    exact ⟨ih.1, fun s' len' h => ⟨(ih.2 s' len' h).1.trans (by simp), (ih.2 s' len' h).2⟩⟩
  | case4 c s len hspace =>
    rw [skipSpaces, if_neg hspace]
    refine ⟨nofun, fun s' len' h => ?_⟩
    cases h
    simp

/-- The loop over the attributes ends. -/
theorem attachAttr_ne_fuel (name : List Char) (fuel : ℕ) (s : List Char) (len : ℕ)
    (h : s.length < fuel) : attachAttr name fuel s len ≠ .error .fuel := by
  induction fuel generalizing s len with
  | zero => omega
  | succ fuel ih =>
    rw [attachAttr]
    refine bind_ne_fuel (skipSpaces_spec s len).1 fun (s', len') hskip => ?_
    obtain ⟨hle, hne⟩ := (skipSpaces_spec s len).2 s' len' hskip
    by_cases hlen : len' = 0
    · simp [hlen]
    · have hpos := List.length_pos_iff.mpr (hne hlen)
      dsimp only
      rw [if_neg hlen]
      refine bind_ne_fuel (memchr_ne_fuel _ _ _) fun nl _ =>
        bind_ne_fuel (memchr_ne_fuel _ _ _) fun i _ => ?_
      cases i with
      | none => nofun
      | some i =>
        dsimp only
        split_ifs
        · exact map_ne_fuel _ (attrValue_ne_fuel _ _)
        · refine bind_ne_fuel (memchr_ne_fuel _ _ _) fun j _ => ?_
          cases j with
          | none => nofun
          | some j => exact ih _ _ (by simp; omega)

theorem attachType_ne_fuel (name s : List Char) : attachType name s ≠ .error .fuel := by
  unfold attachType
  split_ifs
  · nofun
  · refine bind_ne_fuel (skipSpaces_spec _ _).1 fun (s', len') hskip => ?_
    dsimp only
    split_ifs
    · nofun
    · refine bind_ne_fuel (memchr_ne_fuel _ _ _) fun nl _ =>
        bind_ne_fuel (memchr_ne_fuel _ _ _) fun semi _ => ?_
      unfold typeOf
      dsimp only
      split_ifs
      · nofun
      · exact map_ne_fuel _ (attachAttr_ne_fuel _ _ _ _ (by rw [List.length_drop]; omega))

end Fdm.Attach
