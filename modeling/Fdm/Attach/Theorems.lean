import Fdm.Attach.Scan

/-!
# The tree of a message

`attach_build` gives the tree of a message when all of its parts are readable, and only then: a
multipart inside of another must end in a leaf, and the outermost one must do so or have nothing
between the end of its last part and its own.
-/

namespace Fdm.Attach

open Lib.Lines

variable {B : List (List Char)} {b : List Char} {size : ℕ}

/-! ## Parts that are read -/

/-- Lines that neither are a Content-Type header nor end a multipart. -/
structure Between (b : List Char) (pre : List (List Char)) : Prop where
  plain : Plain pre
  notClose : ∀ l ∈ pre, isClose b l = false

theorem Between.nil : Between b [] := ⟨by simp [Plain], by simp⟩

/-- The lines behind a part are no boundary. -/
theorem between_trail {p : Part} (h : p.Fits B) (hmem : b ∈ B) (hb : '\n' ∉ b) :
    Between b p.trail := by
  cases p with
  | leaf type name body => exact .nil
  | multipart type b2 ps epilogue =>
    have htext := h.behind
    constructor
    · intro l hl
      obtain ⟨x, hx, rfl⟩ := List.mem_map.mp hl
      exact (htext x hx).not_isContentType
    · intro l hl
      obtain ⟨x, hx, rfl⟩ := List.mem_map.mp hl
      exact (htext x hx).not_isClose hmem hb

/-- What comes behind a part: the other parts, and the end of the multipart. -/
def follow (b : List Char) (ps : List Part) (tail : List (List Char)) : List (List Char) :=
  Part.inside b ps ++ closeLine b :: tail

theorem follow_cons (b : List Char) (p : Part) (ps : List Part) (tail : List (List Char)) :
    follow b (p :: ps) tail = openLine b :: p.header :: (p.content ++ follow b ps tail) := by
  simp [follow, Part.inside]

/-- The line behind a leaf. -/
theorem follow_eq (b : List Char) (ps : List Part) (tail : List (List Char)) :
    ∃ l rest, follow b ps tail = l :: rest ∧
      (l = openLine b ∧ ps.isEmpty = false ∨ l = closeLine b ∧ ps.isEmpty = true) := by
  cases ps with
  | nil => exact ⟨_, _, rfl, .inr ⟨rfl, rfl⟩⟩
  | cons p ps => exact ⟨_, _, follow_cons b p ps tail, .inl ⟨rfl, rfl⟩⟩

/-- What `attach_get` is to make of a part: its node, and what comes behind it. -/
def GetsPart (b : List Char) (p : Part) (ps : List Part) (tail : List (List Char))
    (r : Attach × ℕ × List (List Char) × Bool) : Prop :=
  Mirrors r.1 p ∧ r.2.2.1 = p.trail ++ follow b ps tail ∧ r.2.2.2 = (p.isLeaf && ps.isEmpty)

/-- What the loop is to make of the parts of a multipart. -/
def GetsParts (b : List Char) (addr n : ℕ) (ps : List Part) (tail : List (List Char))
    (r : List Attach × ℕ × List (List Char)) : Prop :=
  MirrorsInside addr n r.1 ps ∧ r.2.2 = closeLine b :: tail

/-- The numbers and links of a node say nothing about its part. -/
theorem mirrors_link {atr : Attach} {p : Part} (n addr : ℕ) :
    Mirrors { atr with idx := n, parent := some addr } p ↔ Mirrors atr p := by
  cases p <;> exact Iff.rfl

/-- The loop goes on at a part. -/
theorem attachChildren_next {stops : Bool} {pre : List (List Char)} (hpre : Between b pre)
    (p : Part) (ps : List Part) (tail : List (List Char)) (fuel addr n next : ℕ) :
    attachChildren size (fuel + 1) b stops addr n next (pre ++ follow b (p :: ps) tail) false =
      (attachGet size fuel b next
        ((pre ++ [openLine b]) ++ p.header :: (p.content ++ follow b ps tail))).bind
          fun (at', next, ptr, last) =>
            (attachChildren size fuel b stops addr (n + 1) next ptr last).map
              fun (ats, next, ptr) => ({ at' with idx := n, parent := some addr } :: ats, next, ptr) := by
  have hhead : isClose b ((pre ++ follow b (p :: ps) tail).headD []) = false := by
    cases pre with
    | nil => simp [follow_cons]
    | cons l pre => exact hpre.notClose l List.mem_cons_self
  have hne : pre ++ follow b (p :: ps) tail ≠ [] := by simp [follow_cons]
  have hgo : ¬ (pre ++ follow b (p :: ps) tail = [] ∨ false = true ∨
      stops = true ∧ isClose b ((pre ++ follow b (p :: ps) tail).headD []) = true) := by
    rw [hhead]
    simp [hne]
  rw [attachChildren, if_neg hgo]
  simp [follow_cons]

/-- The loop ends behind the last part. -/
theorem attachChildren_end {stops last : Bool} (h : last = true ∨ stops = true)
    (tail : List (List Char)) (fuel addr n next : ℕ) :
    Yields (GetsParts b addr n [] tail)
      (attachChildren size fuel b stops addr n next (closeLine b :: tail) last) := by
  cases fuel with
  | zero => exact .inl (by rw [attachChildren])
  | succ fuel =>
    right
    refine ⟨([], next, closeLine b :: tail), ?_, by simp [GetsParts, MirrorsInside]⟩
    rw [attachChildren, if_pos]
    rcases h with rfl | rfl <;> simp

theorem plain_openLine {pre : List (List Char)} (h : Plain pre) (b : List Char) :
    Plain (pre ++ [openLine b]) := by
  intro l hl
  rcases List.mem_append.mp hl with hl | hl
  · exact h l hl
  · simp [List.mem_singleton.mp hl]

mutual

/-- A readable part is read. -/
theorem get_readable {b : List Char} (size : ℕ) (p : Part) (h : p.Readable) (hfits : p.Fits B)
    (hmem : b ∈ B) (hb : '\n' ∉ b) {pre : List (List Char)} (hpre : Plain pre) (ps : List Part)
    (tail : List (List Char)) (fuel next : ℕ) :
    Yields (GetsPart b p ps tail)
      (attachGet size fuel b next (pre ++ p.header :: (p.content ++ follow b ps tail))) := by
  match fuel with
  | 0 => exact .inl (by rw [attachGet])
  | fuel + 1 =>
    match p with
    | .leaf type name body =>
      obtain ⟨l, rest, hfollow, hl⟩ := follow_eq b ps tail
      have hleaf := attachGet_leaf size fuel next hpre hfits hb hmem hl rest
      have hname : ¬ ∃ value ∈ name, ';' ∈ value := fun ⟨value, hv, hsemi⟩ => h value hv hsemi
      rw [if_neg hname] at hleaf
      obtain ⟨atr, hatr, hmirrors⟩ := hleaf
      rw [hfollow]
      exact .inr ⟨_, hatr, hmirrors, hfollow.symm, by simp [Part.isLeaf]⟩
    | .multipart type b2 [] epilogue => exact absurd rfl h.2.1
    | .multipart type b2 (q :: qs) epilogue =>
      obtain ⟨hsemi, -, hinside⟩ := h
      obtain ⟨-, -, hb2, -⟩ := hfits.inOrder
      have hloop := children_readable size q qs hinside hfits.inside hfits.boundary_mem hb2.2.1
        Between.nil (epilogue.map newline ++ follow b ps tail) fuel next 0 (next + 1)
      rw [List.nil_append, follow] at hloop
      rw [attachGet_multipart size fuel next hpre hfits _ hsemi, Part.inside, List.cons_append,
        List.dropWhile_cons_of_neg (by simp)]
      refine hloop.bind ?_
      rintro ⟨children, next', ptr⟩ ⟨hchildren, hptr⟩
      dsimp only at hchildren hptr
      subst hptr
      dsimp only
      rw [List.dropWhile_cons_of_neg (by simp)]
      exact .inr ⟨_, rfl, ⟨rfl, rfl, hchildren⟩, rfl, rfl⟩

/-- Readable parts of a multipart are read. -/
theorem children_readable {b : List Char} {stops : Bool} (size : ℕ) (p : Part) (ps : List Part)
    (h : Part.ReadableInside stops (p :: ps)) (hfits : Part.FitsInside B (p :: ps)) (hmem : b ∈ B)
    (hb : '\n' ∉ b) {pre : List (List Char)} (hpre : Between b pre) (tail : List (List Char))
    (fuel addr n next : ℕ) :
    Yields (GetsParts b addr n (p :: ps) tail)
      (attachChildren size fuel b stops addr n next (pre ++ follow b (p :: ps) tail) false) := by
  match fuel with
  | 0 => exact .inl (by rw [attachChildren])
  | fuel + 1 =>
    obtain ⟨hp, hend, hps⟩ := h
    rw [attachChildren_next hpre]
    refine (get_readable size p hp hfits.head hmem hb (plain_openLine hpre.plain b) ps tail fuel
      next).bind ?_
    rintro ⟨atr, next', ptr, last⟩ ⟨hatr, hptr, hlast⟩
    dsimp only at hatr hptr hlast
    subst hptr hlast
    have hrest : Yields (GetsParts b addr (n + 1) ps tail)
        (attachChildren size fuel b stops addr (n + 1) next' (p.trail ++ follow b ps tail)
          (p.isLeaf && ps.isEmpty)) := by
      match ps with
      | [] =>
        rcases hend rfl with hleaf | ⟨hstops, htrail⟩
        · have htrail : p.trail = [] := by
            cases p with
            | leaf type name body => rfl
            | multipart type b2 qs epilogue => cases hleaf
          rw [htrail]
          exact attachChildren_end (.inl (by simp [hleaf])) tail fuel addr (n + 1) next'
        · rw [htrail]
          exact attachChildren_end (.inr hstops) tail fuel addr (n + 1) next'
      | q :: qs =>
        rw [List.isEmpty_cons, Bool.and_false]
        exact children_readable size q qs hps hfits.tail hmem hb (between_trail hfits.head hmem hb)
          tail fuel addr (n + 1) next'
    refine hrest.map ?_
    rintro ⟨ats, next'', ptr⟩ ⟨hats, hptr⟩
    exact ⟨⟨_, ats, rfl, rfl, rfl, (mirrors_link n addr).mpr hatr, hats⟩, hptr⟩

end

/-! ## Parts that are not read -/

/-- The loop does not end before a part, so that it adds one. -/
theorem attachChildren_ne_nil {stops : Bool} {ptr : List (List Char)} (hne : ptr ≠ [])
    (hgo : stops = true → isClose b (ptr.headD []) = false) {fuel addr n next : ℕ}
    {r : List Attach × ℕ × List (List Char)}
    (h : attachChildren size fuel b stops addr n next ptr false = .ok r) : r.1 ≠ [] := by
  cases fuel with
  | zero =>
    rw [attachChildren] at h
    cases h
  | succ fuel =>
    have hnot : ¬ (ptr = [] ∨ false = true ∨
        stops = true ∧ isClose b (ptr.headD []) = true) := by
      rintro (h | h | ⟨hstops, hclose⟩)
      · exact hne h
      · cases h
      · rw [hgo hstops] at hclose
        cases hclose
    rw [attachChildren, if_neg hnot] at h
    obtain ⟨⟨atr, next', ptr', last⟩, -, h⟩ := bind_ok h
    obtain ⟨⟨ats, next'', ptr''⟩, -, h⟩ := map_ok h
    rw [← h]
    exact List.cons_ne_nil _ _

/-- Behind a last part that cannot be the last one, the loop goes on. -/
theorem not_gets_end {stops : Bool} {p : Part} (hfits : p.Fits B) (hmem : b ∈ B) (hb : '\n' ∉ b)
    (hend : ¬ p.CanEnd stops) (tail : List (List Char)) {fuel addr n next : ℕ}
    {r : List Attach × ℕ × List (List Char)}
    (h : attachChildren size fuel b stops addr n next (p.trail ++ closeLine b :: tail)
      (p.isLeaf && true) = .ok r) : r.1 ≠ [] := by
  have hleaf : p.isLeaf = false := by
    by_contra hleaf
    exact hend (.inl (by simpa using hleaf))
  rw [hleaf, Bool.false_and] at h
  refine attachChildren_ne_nil (by simp) (fun hstops => ?_) h
  cases htrail : p.trail with
  | nil => exact absurd (.inr ⟨hstops, htrail⟩) hend
  | cons l ls =>
    exact (between_trail hfits hmem hb).notClose l (by simp [htrail])

mutual

/-- A part that is not readable does not get its node. -/
theorem get_unreadable {b : List Char} (p : Part) (h : ¬ p.Readable) (hfits : p.Fits B)
    (hmem : b ∈ B) (hb : '\n' ∉ b) {pre : List (List Char)} (hpre : Plain pre) (ps : List Part)
    (tail : List (List Char)) (fuel next : ℕ) (r : Attach × ℕ × List (List Char) × Bool)
    (hr : attachGet size fuel b next (pre ++ p.header :: (p.content ++ follow b ps tail)) =
      .ok r) : ¬ Mirrors r.1 p := by
  match fuel with
  | 0 =>
    rw [attachGet] at hr
    cases hr
  | fuel + 1 =>
    match p with
    | .leaf type name body =>
      obtain ⟨l, rest, hfollow, hl⟩ := follow_eq b ps tail
      have hleaf := attachGet_leaf size fuel next hpre hfits hb hmem hl rest
      have hname : ∃ value ∈ name, ';' ∈ value := by
        simpa [Part.Readable] using h
      rw [if_pos hname, ← hfollow, hr] at hleaf
      cases hleaf
    | .multipart type b2 ps' epilogue =>
      by_cases hsemi : ';' ∈ b2
      · exact absurd hr (attachGet_semicolon size fuel next hpre hfits _ hsemi r)
      · obtain ⟨-, -, hb2, -⟩ := hfits.inOrder
        rw [attachGet_multipart size fuel next hpre hfits _ hsemi] at hr
        obtain ⟨⟨children, next', ptr⟩, hloop, hr⟩ := bind_ok hr
        -- the loop has found an end, and the node is its result
        have hnode : r.1.children = children ∧ r.1.addr = next ∧ ptr ≠ [] := by
          dsimp only at hr
          split at hr
          · cases hr
          · next hptr =>
            cases hr
            refine ⟨rfl, rfl, ?_⟩
            rintro rfl
            cases hptr
        rintro ⟨-, -, hchildren⟩
        rw [hnode.1] at hchildren
        match ps' with
        | [] =>
          obtain rfl : children = [] := hchildren
          by_cases hfirst : (Part.inside b2 [] ++ closeLine b2 ::
              (epilogue.map newline ++ follow b ps tail)).dropWhile (fun l => !isOpen b2 l) = []
          · rw [hfirst] at hloop
            cases fuel with
            | zero =>
              rw [attachChildren] at hloop
              cases hloop
            | succ fuel =>
              rw [attachChildren, if_pos (.inl rfl)] at hloop
              cases hloop
              exact hnode.2.2 rfl
          · exact attachChildren_ne_nil hfirst (by simp) hloop rfl
        | q :: qs =>
          have hinside : ¬ Part.ReadableInside false (q :: qs) := fun hinside =>
            h ⟨hsemi, List.cons_ne_nil _ _, hinside⟩
          rw [Part.inside, List.cons_append, List.dropWhile_cons_of_neg (by simp)] at hloop
          exact children_unreadable q qs hinside hfits.inside hfits.boundary_mem hb2.2.1
            Between.nil (epilogue.map newline ++ follow b ps tail) fuel next 0 (next + 1) _ hloop
            (hnode.2.1 ▸ hchildren)

/-- Parts that are not readable do not get their nodes. -/
theorem children_unreadable {b : List Char} {stops : Bool} (p : Part) (ps : List Part)
    (h : ¬ Part.ReadableInside stops (p :: ps)) (hfits : Part.FitsInside B (p :: ps))
    (hmem : b ∈ B) (hb : '\n' ∉ b) {pre : List (List Char)} (hpre : Between b pre)
    (tail : List (List Char)) (fuel addr n next : ℕ) (r : List Attach × ℕ × List (List Char))
    (hr : attachChildren size fuel b stops addr n next (pre ++ follow b (p :: ps) tail) false =
      .ok r) : ¬ MirrorsInside addr n r.1 (p :: ps) := by
  match fuel with
  | 0 =>
    rw [attachChildren] at hr
    cases hr
  | fuel + 1 =>
    rw [attachChildren_next hpre] at hr
    obtain ⟨⟨atr, next', ptr, last⟩, hget, hr⟩ := bind_ok hr
    obtain ⟨⟨ats, next'', ptr'⟩, hloop, hr⟩ := map_ok hr
    subst hr
    rintro ⟨atr', ats', heq, -, -, hatr, hats⟩
    dsimp only at heq
    obtain ⟨rfl, rfl⟩ := List.cons_eq_cons.mp heq
    rw [mirrors_link] at hatr
    have hplain := plain_openLine hpre.plain b
    by_cases hp : p.Readable
    · rcases get_readable size p hp hfits.head hmem hb hplain ps tail fuel next with
        hfuel | ⟨good, hgood, -, hptr, hlast⟩
      · rw [hfuel] at hget
        cases hget
      · rw [hgood] at hget
        cases hget
        dsimp only at hptr hlast
        subst hptr hlast
        match ps with
        | [] =>
          have hend : ¬ p.CanEnd stops := fun hend => h ⟨hp, fun _ => hend, trivial⟩
          exact not_gets_end hfits.head hmem hb hend tail hloop hats
        | q :: qs =>
          have hps : ¬ Part.ReadableInside stops (q :: qs) := fun hps => h ⟨hp, nofun, hps⟩
          rw [List.isEmpty_cons, Bool.and_false] at hloop
          exact children_unreadable q qs hps hfits.tail hmem hb
            (between_trail hfits.head hmem hb) tail fuel addr (n + 1) next' _ hloop hats
    · exact get_unreadable p hp hfits.head hmem hb hplain ps tail fuel next _ hget hatr

end

/-! ## The bound on the calls -/

theorem length_dropWhile_le {α : Type} (p : α → Bool) (l : List α) :
    (l.dropWhile p).length ≤ l.length :=
  (List.dropWhile_suffix p).length_le

theorem attachLeaf_spec (size : ℕ) (b : List Char) (addr data : ℕ) (type : List Char)
    (name : Option (List Char)) (hdr : List (List Char)) :
    attachLeaf size b addr data type name hdr ≠ .error .fuel ∧
      ∀ r, attachLeaf size b addr data type name hdr = .ok r → r.2.1.length < hdr.length := by
  have hle := length_dropWhile_le (fun l => decide (1 < l.length)) hdr
  unfold attachLeaf
  split
  · refine ⟨by simp, fun r hr => ?_⟩
    cases hr
  · next blank body hblank =>
    rw [hblank, List.length_cons] at hle
    have hle' := length_dropWhile_le (fun l => !(isLast b l || isOpen b l)) body
    split
    · refine ⟨by simp, fun r hr => ?_⟩
      cases hr
    · next l ptr hptr =>
      rw [hptr] at hle'
      refine ⟨by simp, fun r hr => ?_⟩
      cases hr
      show (l :: ptr).length < hdr.length
      omega

theorem not_isOpen_of_isContentType {l : List Char} (b : List Char) (h : isContentType l = true) :
    isOpen b l = false := by
  cases l with
  | nil => simp [isOpen]
  | cons c l =>
    have hc : c ≠ '-' := by
      rintro rfl
      simp [isContentType, contentType] at h
    simp [isOpen, dashed, List.isPrefixOf, hc.symm]

/-- A call of `attach_get` that ends, behind the line it starts at. -/
def GetEnds (size fuel : ℕ) (b : List Char) (next : ℕ) (ptr : List (List Char)) : Prop :=
  attachGet size fuel b next ptr ≠ .error .fuel ∧
    ∀ r, attachGet size fuel b next ptr = .ok r → r.2.2.1.length < ptr.length

/-- A loop that ends, and does not go back. -/
def ChildrenEnd (size fuel : ℕ) (b : List Char) (stops : Bool) (addr n next : ℕ)
    (ptr : List (List Char)) (last : Bool) : Prop :=
  attachChildren size fuel b stops addr n next ptr last ≠ .error .fuel ∧
    ∀ r, attachChildren size fuel b stops addr n next ptr last = .ok r → r.2.2.length ≤ ptr.length

theorem get_ends {fuel : ℕ} {ptr : List (List Char)}
    (h : ∀ b addr next ptr', ptr'.length < ptr.length →
      ChildrenEnd size fuel b false addr 0 next ptr' false) (b : List Char) (next : ℕ) :
    GetEnds size (fuel + 1) b next ptr := by
  unfold GetEnds
  rw [attachGet]
  have hle := length_dropWhile_le (fun l => !isContentType l) ptr
  cases hdr : ptr.dropWhile fun l => !isContentType l with
  | nil =>
    refine ⟨by simp, fun r hr => ?_⟩
    cases hr
  | cons l t =>
    rw [hdr] at hle
    have hstart : isContentType l = true := by
      have hhead := List.head?_dropWhile_not (fun l => !isContentType l) ptr
      rw [hdr] at hhead
      simpa using hhead
    constructor
    · refine bind_ne_fuel (attachType_ne_fuel _ _) fun (type, name) _ => ?_
      dsimp only
      split_ifs
      · exact map_ne_fuel _ (attachLeaf_spec _ _ _ _ _ _ _).1
      · refine bind_ne_fuel (attachType_ne_fuel _ _) fun (type, b2) _ => ?_
        cases b2 with
        | none => simp
        | some b2 =>
          dsimp only
          rw [List.dropWhile_cons_of_pos (by simp [not_isOpen_of_isContentType b2 hstart])]
          have hskip := length_dropWhile_le (fun l => !isOpen b2 l) t
          have hloop := h b2 next (next + 1) (t.dropWhile fun l => !isOpen b2 l)
            (by rw [List.length_cons] at hle; omega)
          refine bind_ne_fuel hloop.1 fun (children, next', rest) _ => ?_
          dsimp only
          split <;> simp
    · intro r hr
      obtain ⟨⟨type, name⟩, -, hr⟩ := bind_ok hr
      dsimp only at hr
      split_ifs at hr
      · obtain ⟨⟨atr, ptr', last⟩, hleaf, rfl⟩ := map_ok hr
        exact ((attachLeaf_spec _ _ _ _ _ _ _).2 _ hleaf).trans_le hle
      · obtain ⟨⟨type, b2⟩, -, hr⟩ := bind_ok hr
        cases b2 with
        | none => cases hr
        | some b2 =>
          dsimp only at hr
          rw [List.dropWhile_cons_of_pos (by simp [not_isOpen_of_isContentType b2 hstart])] at hr
          have hskip := length_dropWhile_le (fun l => !isOpen b2 l) t
          obtain ⟨⟨children, next', rest⟩, hloop, hr⟩ := bind_ok hr
          have hrest := (h b2 next (next + 1) (t.dropWhile fun l => !isOpen b2 l)
            (by rw [List.length_cons] at hle; omega)).2 _ hloop
          have hclose := length_dropWhile_le (fun l => !isClose b2 l) rest
          dsimp only at hr hrest
          split at hr
          · cases hr
          · next l' rest' hrest' =>
            rw [hrest', List.length_cons] at hclose
            cases hr
            rw [List.length_cons] at hle
            show rest'.length < ptr.length
            omega

theorem children_end {fuel : ℕ} {ptr : List (List Char)}
    (hget : ptr ≠ [] → ∀ b next, GetEnds size fuel b next ptr)
    (h : ∀ b stops addr n next ptr' last, ptr'.length < ptr.length →
      ChildrenEnd size fuel b stops addr n next ptr' last)
    (b : List Char) (stops : Bool) (addr n next : ℕ) (last : Bool) :
    ChildrenEnd size (fuel + 1) b stops addr n next ptr last := by
  unfold ChildrenEnd
  rw [attachChildren]
  split_ifs with hstop
  · exact ⟨nofun, fun r hr => by cases hr; exact le_rfl⟩
  · have hne : ptr ≠ [] := fun hnil => hstop (.inl hnil)
    constructor
    · refine bind_ne_fuel (hget hne b next).1 fun (atr, next', ptr', last') hatr => ?_
      exact map_ne_fuel _ (h _ _ _ _ _ _ _ ((hget hne b next).2 _ hatr)).1
    · intro r hr
      obtain ⟨⟨atr, next', ptr', last'⟩, hatr, hr⟩ := bind_ok hr
      have hlt := (hget hne b next).2 _ hatr
      obtain ⟨⟨ats, next'', ptr''⟩, hloop, rfl⟩ := map_ok hr
      exact ((h _ _ _ _ _ _ _ hlt).2 _ hloop).trans hlt.le

/-- Twice the number of lines bounds the calls. -/
theorem fuel_enough (size fuel : ℕ) :
    (∀ ptr : List (List Char), 2 * ptr.length ≤ fuel + 1 →
      ∀ b next, GetEnds size (fuel + 1) b next ptr) ∧
    (∀ ptr : List (List Char), 2 * ptr.length ≤ fuel → ∀ b stops addr n next last,
      ChildrenEnd size (fuel + 1) b stops addr n next ptr last) := by
  induction fuel with
  | zero =>
    constructor
    · intro ptr hle
      exact get_ends fun b addr next ptr' hlt => by omega
    · intro ptr hle
      have hnil : ptr = [] := List.eq_nil_of_length_eq_zero (by omega)
      exact children_end (fun hne => absurd hnil hne) fun b stops addr n next ptr' last hlt => by
        omega
  | succ fuel ih =>
    constructor
    · intro ptr hle
      exact get_ends fun b addr next ptr' hlt => ih.2 ptr' (by omega) b false addr 0 next false
    · intro ptr hle
      exact children_end (fun _ => ih.1 ptr hle) fun b stops addr n next ptr' last hlt =>
        ih.2 ptr' (by omega) b stops addr n next last

/-- The bound of `attach_build` is high enough for every mail. -/
theorem attachBuild_fuel {α : Type} (m : Mail α) : attachBuild m ≠ .error .fuel := by
  unfold attachBuild
  split
  · nofun
  · refine bind_ne_fuel (attachType_ne_fuel _ _) fun (type, b) _ => ?_
    cases b with
    | none => nofun
    | some b =>
      dsimp only
      split_ifs
      · nofun
      · unfold attachRoot
        split_ifs
        · nofun
        · refine bind_ne_fuel ((fuel_enough m.size (2 * _)).2 _ le_rfl b true 0 0 1
            false).1 fun (children, next, rest) _ => ?_
          dsimp only
          split_ifs <;> nofun

/-! ## Numbers -/

/-- Different numbers, from one up to another. -/
structure Numbered (lo hi : ℕ) (l : List ℕ) : Prop where
  le : lo ≤ hi
  nodup : l.Nodup
  range : ∀ a ∈ l, lo ≤ a ∧ a < hi

theorem Numbered.append {lo mid hi : ℕ} {l l' : List ℕ} (h : Numbered lo mid l)
    (h' : Numbered mid hi l') : Numbered lo hi (l ++ l') where
  le := h.le.trans h'.le
  nodup := by
    refine List.nodup_append.mpr ⟨h.nodup, h'.nodup, ?_⟩
    rintro a ha a' ha' rfl
    have hlt := (h.range a ha).2
    have hge := (h'.range a ha').1
    omega
  range a ha := by
    have hle := h.le
    have hle' := h'.le
    rcases List.mem_append.mp ha with ha | ha
    · have hr := h.range a ha
      omega
    · have hr := h'.range a ha
      omega

theorem Numbered.cons {lo hi : ℕ} {l : List ℕ} (h : Numbered (lo + 1) hi l) :
    Numbered lo hi (lo :: l) := by
  have hone : Numbered lo (lo + 1) [lo] := ⟨Nat.le_succ lo, by simp, by simp⟩
  exact hone.append h

theorem addrs_eq (atr : Attach) : addrs atr = atr.addr :: addrsInside atr.children := by
  cases atr
  rfl

theorem addrs_link (atr : Attach) (n addr : ℕ) :
    addrs { atr with idx := n, parent := some addr } = addrs atr := by
  simp [addrs_eq]

/-- The numbers of the nodes that a call makes. -/
theorem numbered (size fuel : ℕ) :
    (∀ b next ptr r, attachGet size fuel b next ptr = .ok r →
      Numbered next r.2.1 (addrs r.1)) ∧
    (∀ b stops addr n next ptr last r, attachChildren size fuel b stops addr n next ptr last = .ok r →
      Numbered next r.2.1 (addrsInside r.1)) := by
  induction fuel with
  | zero =>
    constructor
    · intro b next ptr r hr
      rw [attachGet] at hr
      cases hr
    · intro b stops addr n next ptr last r hr
      rw [attachChildren] at hr
      cases hr
  | succ fuel ih =>
    have hnone (next : ℕ) : Numbered next next [] := ⟨le_rfl, List.nodup_nil, by simp⟩
    constructor
    · intro b next ptr r hr
      rw [attachGet] at hr
      cases hdr : ptr.dropWhile fun l => !isContentType l with
      | nil =>
        rw [hdr] at hr
        cases hr
      | cons l t =>
        rw [hdr] at hr
        obtain ⟨⟨type, name⟩, -, hr⟩ := bind_ok hr
        dsimp only at hr
        split_ifs at hr
        · obtain ⟨⟨atr, ptr', last⟩, hleaf, rfl⟩ := map_ok hr
          have hnode : atr.addr = next ∧ atr.children = [] := by
            unfold attachLeaf at hleaf
            split at hleaf
            · cases hleaf
            · dsimp only at hleaf
              split at hleaf
              · cases hleaf
              · cases hleaf
                exact ⟨rfl, rfl⟩
          rw [addrs_eq, hnode.1, hnode.2]
          exact (hnone (next + 1)).cons
        · obtain ⟨⟨type, b2⟩, -, hr⟩ := bind_ok hr
          cases b2 with
          | none => cases hr
          | some b2 =>
            obtain ⟨⟨children, next', rest⟩, hloop, hr⟩ := bind_ok hr
            have hinside := ih.2 _ _ _ _ _ _ _ _ hloop
            dsimp only at hr
            split at hr
            · cases hr
            · cases hr
              rw [addrs_eq]
              exact hinside.cons
    · intro b stops addr n next ptr last r hr
      rw [attachChildren] at hr
      split_ifs at hr
      · cases hr
        exact hnone next
      · obtain ⟨⟨atr, next', ptr', last'⟩, hatr, hr⟩ := bind_ok hr
        obtain ⟨⟨ats, next'', ptr''⟩, hloop, rfl⟩ := map_ok hr
        have hfirst := ih.1 _ _ _ _ hatr
        show Numbered next next'' (addrs { atr with idx := n, parent := some addr } ++ addrsInside ats)
        rw [addrs_link]
        exact hfirst.append (ih.2 _ _ _ _ _ _ _ _ hloop)

/-! ## The mail of a message -/

theorem complete_newline {l : List Char} (h : '\n' ∉ l) : Complete (newline l) := ⟨l, h, rfl⟩

theorem complete_header {p : Part} (h : p.InOrder) : Complete p.header := by
  cases p with
  | leaf type name body =>
    obtain ⟨htype, -, hname⟩ := h
    apply complete_newline
    cases name with
    | none => simp [headerStart, htype.plain.2.1]
    | some value => simp [headerStart, attrText, nameAttr, htype.plain.2.1, (hname value rfl).2.1]
  | multipart type b ps epilogue =>
    obtain ⟨htype, -, hb, -⟩ := h
    apply complete_newline
    simp [headerStart, attrText, boundaryAttr, htype.plain.2.1, hb.2.1]

theorem complete_text {ls : List (List Char)} (h : ∀ l ∈ ls, IsText B l) :
    ∀ l ∈ ls.map newline, Complete l := by
  intro l hl
  obtain ⟨x, hx, rfl⟩ := List.mem_map.mp hl
  exact complete_newline (h x hx).oneLine

theorem complete_blank : Complete ['\n'] := ⟨[], by simp, rfl⟩

mutual

theorem complete_content (p : Part) (h : p.Fits B) : ∀ l ∈ p.content, Complete l := by
  match p with
  | .leaf type name body =>
    rw [Part.content, List.forall_mem_cons]
    exact ⟨complete_blank, complete_text h.isText⟩
  | .multipart type b ps epilogue =>
    have hb : '\n' ∉ b := h.inOrder.2.2.1.2.1
    rw [Part.content, List.forall_mem_cons, List.forall_mem_append, List.forall_mem_cons]
    refine ⟨complete_blank, complete_inside b hb ps h.inside, ?_, complete_text h.behind⟩
    exact complete_newline (by simp [dashed, hb])

theorem complete_inside (b : List Char) (hb : '\n' ∉ b) (ps : List Part)
    (h : Part.FitsInside B ps) : ∀ l ∈ Part.inside b ps, Complete l := by
  match ps with
  | [] => simp [Part.inside]
  | p :: ps =>
    rw [Part.inside, List.forall_mem_cons, List.forall_mem_cons, List.forall_mem_append]
    refine ⟨complete_newline (by simp [dashed, hb]), complete_header h.head.inOrder,
      complete_content p h.head, complete_inside b hb ps h.tail⟩

end

namespace Message

variable {α : Type} (msg : Message)

theorem fits : msg.root.Fits msg.root.boundaries where
  inOrder := msg.inOrder
  subset _ hb := hb
  isText l hl := msg.isText l (List.mem_append_right _ hl)

/-- All lines of the mail are complete. -/
theorem complete_lines : ∀ l ∈ msg.lines, Complete l := by
  rw [lines, List.forall_mem_append, List.forall_mem_cons]
  exact ⟨complete_text fun l hl => msg.isText l (List.mem_append_left _ hl),
    complete_header msg.inOrder, complete_content msg.root msg.fits⟩

/-- The mail has the lines of the message. -/
theorem lines_mail : Lib.Lines.lines (msg.mail : Mail α).data = msg.lines :=
  (ruled_of_complete msg.complete_lines).lines_flatten

theorem content_eq (p : Part) : ∃ t, p.content = ['\n'] :: t := by
  cases p <;> exact ⟨_, by rw [Part.content]⟩

/-- The body starts behind the empty line. -/
theorem findBodyFrom_lines (off : ℕ) (headers : List (List Char)) (hne : ∀ l ∈ headers, l ≠ [])
    (p : Part) :
    Mail.findBodyFrom off (headers.map newline ++ p.header :: p.content) =
      off + (headers.map newline).flatten.length + p.header.length + 1 := by
  induction headers generalizing off with
  | nil =>
    obtain ⟨t, ht⟩ := content_eq p
    obtain ⟨rest, hrest⟩ := p.header_eq
    have hheader : p.header ≠ ['\n'] := by simp [hrest, headerStart]
    rw [List.map_nil, List.nil_append, ht, Mail.findBodyFrom, if_neg hheader, Mail.findBodyFrom,
      if_pos rfl]
    simp
  | cons l headers ih =>
    obtain ⟨hl, hne⟩ := List.forall_mem_cons.mp hne
    have hline : newline l ≠ ['\n'] := by simp [newline, hl]
    rw [List.map_cons, List.cons_append, Mail.findBodyFrom, if_neg hline, ih _ hne]
    simp only [List.flatten_cons, List.length_append]
    omega

/-- A line that `find_header` takes for a Content-Type header is one. -/
theorem isContentType_of_found {l : List Char}
    (hcolon : l[contentType.length]? = some ':')
    (hname : (l.take contentType.length).map Char.toLower = contentType.map Char.toLower) :
    isContentType l = true := by
  have htake : l.take 13 = l.take 12 ++ [':'] := by
    rw [List.take_add_one, show l[12]? = some ':' from hcolon]
    rfl
  have hlower : contentType.map Char.toLower = contentType := by decide
  rw [isContentType, htake, List.map_append, show (l.take 12).map Char.toLower = contentType by
    rw [← hlower]; exact hname]
  rfl

/-- The Content-Type header of the message is found. -/
theorem findHeaderFrom_lines (body off : ℕ) (headers : List (List Char)) (p : Part)
    (hbody : off + (headers.map newline).flatten.length < body)
    (hplain : ∀ l ∈ headers, isContentType (newline l) = false) (t : List (List Char)) :
    Mail.findHeaderFrom body contentType off (headers.map newline ++ p.header :: t) =
      some (off + (headers.map newline).flatten.length, p.header) := by
  induction headers generalizing off with
  | nil =>
    obtain ⟨rest, hrest⟩ := p.header_eq
    have hfound : contentType.length + 1 ≤ p.header.length ∧
        p.header[contentType.length]? = some ':' ∧
        (p.header.take contentType.length).map Char.toLower = contentType.map Char.toLower := by
      rw [hrest]
      exact ⟨by simp [headerStart, contentType], rfl, by
        simp [headerStart, contentType]⟩
    simp only [List.map_nil, List.flatten_nil, List.length_nil, Nat.add_zero] at hbody ⊢
    rw [List.nil_append, Mail.findHeaderFrom, if_neg (by omega), if_pos hfound]
  | cons l headers ih =>
    obtain ⟨hl, hplain⟩ := List.forall_mem_cons.mp hplain
    simp only [List.map_cons, List.flatten_cons, List.length_append] at hbody ⊢
    have hnot : ¬ (contentType.length + 1 ≤ (newline l).length ∧
        (newline l)[contentType.length]? = some ':' ∧
        ((newline l).take contentType.length).map Char.toLower =
          contentType.map Char.toLower) := by
      rintro ⟨-, hcolon, hname⟩
      rw [isContentType_of_found hcolon hname] at hl
      cases hl
    rw [List.cons_append, Mail.findHeaderFrom, if_neg (by omega), if_neg hnot,
      ih _ (by omega) hplain, Nat.add_assoc]

variable (α) in
/-- Where the Content-Type header of a message is. -/
theorem findHeader_mail :
    ∃ off, (msg.mail : Mail α).findHeader contentType = some (off, msg.root.header) ∧
      (msg.mail : Mail α).data.drop off = msg.root.header ++ msg.root.content.flatten := by
  have hbody : (msg.mail : Mail α).body =
      (msg.headers.map newline).flatten.length + msg.root.header.length + 1 := by
    show Mail.findBodyFrom 0 (Lib.Lines.lines (msg.mail : Mail α).data) = _
    rw [lines_mail, lines, findBodyFrom_lines 0 _ msg.headers_ne, Nat.zero_add]
  have hdata : (msg.mail : Mail α).data =
      (msg.headers.map newline).flatten ++ (msg.root.header ++ msg.root.content.flatten) := by
    show msg.lines.flatten = _
    simp [lines]
  have hheader : 13 ≤ msg.root.header.length := by
    obtain ⟨rest, hrest⟩ := msg.root.header_eq
    rw [hrest, headerStart]
    simp
  have hplain : ∀ l ∈ msg.headers, isContentType (newline l) = false := fun l hl =>
    (msg.isText l (List.mem_append_left _ hl)).not_isContentType
  refine ⟨(msg.headers.map newline).flatten.length, ?_, ?_⟩
  · rw [Mail.findHeader, if_neg, lines_mail, lines, hbody,
      findHeaderFrom_lines _ 0 _ _ (by omega) hplain, Nat.zero_add]
    rw [Mail.size, hdata, hbody]
    simp [contentType]
    omega
  · rw [hdata]
    exact List.drop_left

/-- A message that `attach_build` makes the tree of: it is a multipart, its boundaries and the
names of its leaves have no semicolon, every multipart has a part, and the last part of a
multipart is a leaf; in the outermost one it may be a multipart that has no line of text
behind its end. -/
def Readable (msg : Message) : Prop :=
  match msg.root with
  | .leaf _ _ _ => False
  | .multipart _ boundary children _ =>
    ';' ∉ boundary ∧ children ≠ [] ∧ Part.ReadableInside true children

/-- The first boundary is one in front of a part. -/
theorem not_isClose_first {b : List Char} {ls : List (List Char)}
    (h : ls.dropWhile (fun l => !isOpen b l) ≠ []) :
    isClose b ((ls.dropWhile fun l => !isOpen b l).headD []) = false := by
  have hhead := List.head_dropWhile_not (fun l => !isOpen b l) h
  obtain ⟨l, rest, hl⟩ := List.exists_cons_of_ne_nil h
  simp only [hl, List.head_cons, Bool.not_eq_false', List.headD_cons] at hhead ⊢
  have hlen : l.length = b.length + 3 := by
    simp only [isOpen, Bool.and_eq_true, decide_eq_true_eq] at hhead
    exact hhead.1
  simp [isClose, hlen]

/-- `attach_build` on a message that is a multipart. -/
theorem attachBuild_multipart {type b : List Char} {ps : List Part}
    {epilogue : List (List Char)} (hroot : msg.root = .multipart type b ps epilogue)
    (hsemi : ';' ∉ b) :
    attachBuild (msg.mail : Mail α) = attachRoot (msg.mail : Mail α).size type b
      ((follow b ps (epilogue.map newline)).dropWhile fun l => !isOpen b l) := by
  obtain ⟨off, hfind, hdrop⟩ := msg.findHeader_mail α
  obtain ⟨htype, hmulti, hb, -⟩ := hroot ▸ msg.inOrder
  have hmem : b ∈ msg.root.boundaries := by
    rw [hroot]
    exact List.mem_cons_self
  have hlines : (Lib.Lines.lines (msg.mail : Mail α).data).dropWhile (fun l => !isOpen b l) =
      (follow b ps (epilogue.map newline)).dropWhile fun l => !isOpen b l := by
    have hheaders : ∀ l ∈ msg.headers.map newline, isOpen b l = false := by
      intro l hl
      obtain ⟨x, hx, rfl⟩ := List.mem_map.mp hl
      exact (msg.isText x (List.mem_append_left _ hx)).not_isOpen hmem hb.2.1
    rw [lines_mail, lines,
      List.dropWhile_append_of_pos (fun l hl => by simp [hheaders l hl]),
      List.dropWhile_cons_of_pos (by simp), hroot, Part.content,
      List.dropWhile_cons_of_pos (by simp), follow]
  rw [attachBuild, hfind]
  dsimp only
  rw [hdrop, hroot, attachType_boundary htype hb, if_neg hsemi]
  simp only [Except.bind, hmulti, Bool.not_true, Bool.false_eq_true, if_false, hlines]

/-- A message that is read gets its tree. -/
theorem isTree_of_readable (h : msg.Readable) :
    ∃ atr, attachBuild (msg.mail : Mail α) = .ok atr ∧ IsTree msg atr := by
  have hfuel := attachBuild_fuel (msg.mail : Mail α)
  unfold Readable at h
  split at h
  · exact h.elim
  · next type b ps epilogue hroot =>
    obtain ⟨hsemi, hne, hinside⟩ := h
    have hfits := hroot ▸ msg.fits
    have hb : '\n' ∉ b := hfits.inOrder.2.2.1.2.1
    obtain ⟨p, ps, rfl⟩ := List.exists_cons_of_ne_nil hne
    rw [msg.attachBuild_multipart hroot hsemi, follow_cons, List.dropWhile_cons_of_neg (by simp),
      ← follow_cons, attachRoot, if_neg (by simp [follow_cons])] at hfuel ⊢
    rcases children_readable (msg.mail : Mail α).size p ps hinside hfits.inside
      hfits.boundary_mem hb Between.nil (epilogue.map newline)
      (2 * (follow b (p :: ps) (epilogue.map newline)).length + 1) 0 0 1 with
      hloop | ⟨⟨children, next, ptr⟩, hloop, hchildren, hptr⟩
    · rw [List.nil_append] at hloop
      rw [hloop] at hfuel
      exact absurd rfl hfuel
    · rw [List.nil_append] at hloop
      have hnum := (numbered _ _).2 _ _ _ _ _ _ _ _ hloop
      dsimp only at hptr
      rw [hloop]
      refine ⟨{ addr := 0, type := type, children := children }, ?_, ?_, rfl, ?_⟩
      · simp [Except.bind, hptr]
      · rw [hroot]
        exact ⟨rfl, rfl, hchildren⟩
      · rw [addrs_eq]
        exact (Numbered.cons hnum).nodup

/-- A message that gets its tree is one that is read. -/
theorem readable_of_isTree {atr : Attach} (hbuild : attachBuild (msg.mail : Mail α) = .ok atr)
    (htree : IsTree msg atr) : msg.Readable := by
  by_contra h
  have hmirrors := htree.mirrors
  obtain ⟨off, hfind, hdrop⟩ := msg.findHeader_mail α
  unfold Readable at h
  split at h
  · next type name body hroot =>
    -- a message that is a leaf has no boundary, or none that is asked for
    rw [attachBuild, hfind] at hbuild
    dsimp only at hbuild
    rw [hdrop] at hbuild
    obtain ⟨⟨type', b⟩, htype, hbuild⟩ := bind_ok hbuild
    have hleaf := type_of_part msg.inOrder htype
    rw [hroot] at hleaf
    cases b with
    | none => cases hbuild
    | some b =>
      simp only [hleaf, Part.isLeaf] at hbuild
      cases hbuild
  · next type b ps epilogue hroot =>
    have hfits := hroot ▸ msg.fits
    obtain ⟨htype, hmulti, hquot, -⟩ := hfits.inOrder
    by_cases hsemi : ';' ∈ b
    · rw [attachBuild, hfind] at hbuild
      dsimp only at hbuild
      rw [hdrop, hroot, attachType_boundary htype hquot, if_pos hsemi] at hbuild
      cases hbuild
    · rw [msg.attachBuild_multipart hroot hsemi, attachRoot] at hbuild
      split_ifs at hbuild with hfirst
      obtain ⟨⟨children, next, ptr⟩, hloop, hbuild⟩ := bind_ok hbuild
      dsimp only at hbuild
      split_ifs at hbuild
      cases hbuild
      rw [hroot] at hmirrors
      obtain ⟨-, -, hchildren⟩ := hmirrors
      cases ps with
      | nil =>
        exact attachChildren_ne_nil hfirst (fun _ => not_isClose_first hfirst) hloop hchildren
      | cons p ps =>
        have hinside : ¬ Part.ReadableInside true (p :: ps) := fun hinside =>
          h ⟨hsemi, List.cons_ne_nil _ _, hinside⟩
        rw [follow_cons, List.dropWhile_cons_of_neg (by simp), ← follow_cons] at hloop
        exact children_unreadable p ps hinside hfits.inside hfits.boundary_mem hquot.2.1
          Between.nil (epilogue.map newline) _ 0 0 1 _ hloop hchildren

end Message

/-- `attach_build` gives the tree of a message if and only if the message is readable. -/
theorem attachBuild_isTree_iff {α : Type} (msg : Message) :
    (∃ atr, attachBuild (msg.mail : Mail α) = .ok atr ∧ IsTree msg atr) ↔ msg.Readable := by
  constructor
  · rintro ⟨atr, hbuild, htree⟩
    exact msg.readable_of_isTree hbuild htree
  · exact msg.isTree_of_readable

/-- `"text/plain"`. -/
def textPlain : List Char := ['t', 'e', 'x', 't', '/', 'p', 'l', 'a', 'i', 'n']

theorem isType_textPlain : Part.IsType textPlain := ⟨⟨_, _, rfl, by decide⟩, by decide⟩

theorem isType_multipart : Part.IsType multipart := ⟨⟨_, _, rfl, by decide⟩, by decide⟩

/-- A leaf, then a multipart with another leaf, and a line of text between the two ends. -/
def nestedLast : Message where
  headers := []
  root := .multipart multipart ['a']
    [.leaf textPlain none [['h', 'i']],
      .multipart multipart ['b'] [.leaf textPlain none [['h', 'o']]] [['x']]] []
  inOrder := by
    have hquot (c : Char) (hc : c ≠ '"' ∧ c ≠ '\n' ∧ c ≠ '\x00') : Part.Quotable [c] := by
      simp [Part.Quotable, hc.1.symm, hc.2.1.symm, hc.2.2.symm]
    have hleaf : isMultipart textPlain = false := by decide
    have hmulti : isMultipart multipart = true := by decide
    simp [Part.InOrder, Part.InOrderInside, isType_textPlain, isType_multipart, hleaf, hmulti,
      hquot]
  headers_ne := by simp
  isText := by
    intro l hl
    simp only [Part.text, Part.textInside, List.nil_append, List.append_nil, List.cons_append,
      List.mem_cons, List.not_mem_nil, or_false] at hl
    rcases hl with rfl | rfl | rfl <;> exact ⟨by decide, by decide, by decide⟩

/-- What `attach_build` makes of it is not its tree. -/
theorem nestedLast_lost : ¬ ∃ atr, attachBuild (nestedLast.mail : Mail Unit) = .ok atr ∧
    IsTree nestedLast atr := by
  rintro ⟨atr, hbuild, htree⟩
  obtain ⟨-, -, -, -, -, hend, -⟩ := nestedLast.readable_of_isTree hbuild htree
  rcases hend rfl with hleaf | ⟨-, htrail⟩
  · cases hleaf
  · cases htrail

end Fdm.Attach
