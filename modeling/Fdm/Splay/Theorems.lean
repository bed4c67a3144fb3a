import Fdm.Splay.Defs
import Fdm.Lib.KeyedTree
import Fdm.Lib.Runs
import Mathlib.Tactic.SplitIfs

/-!
# A splay tree is a sorted sequence

`splayLoop_parted` says what splaying does, and the calls follow from it; `calls_refine` is
about all of them together: they answer as `Lib.KeyedTree` does, from any tree on and in any
order.
-/

namespace Fdm.Splay

variable {α κ : Type*} [LinearOrder κ] {key : α → κ} {k : κ}

/-! ## Spines -/

/-- The elements of the tree that `__left` is the last node of. -/
def LeftSpine.toList : LeftSpine α → List α
  | [] => []
  | (l, x) :: s => LeftSpine.toList s ++ (l.toList ++ [x])

def RightSpine.toList : RightSpine α → List α
  | [] => []
  | (x, r) :: s => x :: (r.toList ++ RightSpine.toList s)

/-- Hanging a tree below the left spine. -/
theorem toList_plug_left (s : LeftSpine α) (t : Tree α) :
    (s.plug t).toList = s.toList ++ t.toList := by
  induction s generalizing t with
  | nil => rfl
  | cons p s ih =>
    rw [LeftSpine.plug, ih, LeftSpine.toList, Tree.toList_node]
    simp only [List.append_assoc, List.singleton_append]

/-- Hanging a tree below the right spine. -/
theorem toList_plug_right (s : RightSpine α) (t : Tree α) :
    (s.plug t).toList = t.toList ++ s.toList := by
  induction s generalizing t with
  | nil => exact (List.append_nil _).symm
  | cons p s ih =>
    rw [RightSpine.plug, ih, RightSpine.toList, Tree.toList_node]
    simp only [List.append_assoc, List.cons_append]

/-! ## Splaying -/

/-- The keys of the elements are less than `k`. -/
def Below (key : α → κ) (k : κ) (es : List α) : Prop := ∀ y ∈ es, key y < k

def Above (key : α → κ) (k : κ) (es : List α) : Prop := ∀ y ∈ es, k < key y

theorem below_append {as bs : List α} :
    Below key k (as ++ bs) ↔ Below key k as ∧ Below key k bs := List.forall_mem_append

theorem below_cons {x : α} {as : List α} :
    Below key k (x :: as) ↔ key x < k ∧ Below key k as := List.forall_mem_cons

theorem above_append {as bs : List α} :
    Above key k (as ++ bs) ↔ Above key k as ∧ Above key k bs := List.forall_mem_append

theorem above_cons {x : α} {as : List α} :
    Above key k (x :: as) ↔ k < key x ∧ Above key k as := List.forall_mem_cons

theorem below_nil : Below key k ([] : List α) := nofun

theorem above_nil : Above key k ([] : List α) := nofun

/-- What is below a key is below a larger one. -/
theorem Below.trans {k' : κ} {es : List α} (h : Below key k es) (hlt : k < k') :
    Below key k' es := fun y hy => (h y hy).trans hlt

/-- What is above a key is above a smaller one. -/
theorem Above.trans {k' : κ} {es : List α} (h : Above key k es) (hlt : k' < k) :
    Above key k' es := fun y hy => hlt.trans (h y hy)

/-- Both parts of a sorted tree are sorted, on the two sides of its root. -/
theorem Sorted.parts {l r : Tree α} {x : α} (h : Sorted key (.node l x r)) :
    Sorted key l ∧ Sorted key r ∧ Below key (key x) l.toList ∧ Above key (key x) r.toList := by
  obtain ⟨hl, hr, hlr⟩ := List.pairwise_append.mp h
  have hxr := List.pairwise_cons.mp hr
  exact ⟨hl, hxr.2, fun y hy => hlr y hy x List.mem_cons_self, hxr.1⟩

/-- The elements in front of the root are less than the key, and those behind it are
greater. -/
def Parted (key : α → κ) (k : κ) (es : List α) (t : Tree α) : Prop :=
  ∃ l x r, t = .node l x r ∧ l.toList ++ x :: r.toList = es ∧
    Below key k l.toList ∧ Above key k r.toList

/-- Putting the spines and the parts together parts the records at the key. -/
theorem parted_assemble {left : LeftSpine α} {right : RightSpine α} {l r : Tree α} {x : α}
    (hleft : Below key k left.toList) (hright : Above key k right.toList)
    (hl : Below key k l.toList) (hr : Above key k r.toList) :
    Parted key k (left.toList ++ (l.toList ++ x :: r.toList) ++ right.toList)
      (assemble left right l x r) := by
  refine ⟨left.plug l, x, right.plug r, rfl, ?_, ?_, ?_⟩
  · rw [toList_plug_left, toList_plug_right]
    simp only [List.append_assoc, List.cons_append]
  · rw [toList_plug_left]
    exact below_append.mpr ⟨hleft, hl⟩
  · rw [toList_plug_right]
    exact above_append.mpr ⟨hr, hright⟩

/-- What `SPLAY` does, wherever in the tree it is. -/
theorem splayLoop_parted {t : Tree α} {left : LeftSpine α} {right : RightSpine α}
    (hne : t ≠ .nil) (hsorted : Sorted key t) (hleft : Below key k left.toList)
    (hright : Above key k right.toList) :
    ∃ t', splayLoop key k t left right = some t' ∧
      Parted key k (left.toList ++ t.toList ++ right.toList) t' := by
  fun_induction splayLoop key k t left right with
  | case1 => exact absurd rfl hne
  | case2 x r left right hx =>
    -- nothing is less than the key
    obtain ⟨-, -, -, hr⟩ := hsorted.parts
    exact ⟨_, rfl, parted_assemble hleft hright below_nil (hr.trans hx)⟩
  | case3 x r left right hx y lr hy =>
    obtain ⟨hl, -, -, hr⟩ := hsorted.parts
    obtain ⟨-, -, -, hlr⟩ := hl.parts
    have habove : Above key k (Tree.node lr x r).toList :=
      above_append.mpr ⟨hlr.trans hy, above_cons.mpr ⟨hx, hr.trans hx⟩⟩
    refine ⟨_, rfl, ?_⟩
    have h := parted_assemble (x := y) (l := .nil) hleft hright below_nil habove
    simpa only [Tree.toList_node, Tree.toList_nil, List.nil_append, List.cons_append] using h
  | case4 x r left right hx y lr hy a z b ih =>
    obtain ⟨hl, -, -, hr⟩ := hsorted.parts
    obtain ⟨hll, -, -, hlr⟩ := hl.parts
    have habove : Above key k (Tree.node lr x r).toList :=
      above_append.mpr ⟨hlr.trans hy, above_cons.mpr ⟨hx, hr.trans hx⟩⟩
    obtain ⟨t', ht', h⟩ := ih nofun hll hleft
      (above_cons.mpr ⟨hy, above_append.mpr ⟨habove, hright⟩⟩)
    refine ⟨t', ht', ?_⟩
    simpa only [RightSpine.toList, Tree.toList_node, List.append_assoc, List.cons_append] using h
  | case5 x r left right hx a y b hy ih =>
    obtain ⟨hl, -, -, hr⟩ := hsorted.parts
    obtain ⟨t', ht', h⟩ := ih nofun hl hleft
      (above_cons.mpr ⟨hx, above_append.mpr ⟨hr.trans hx, hright⟩⟩)
    refine ⟨t', ht', ?_⟩
    simpa only [RightSpine.toList, Tree.toList_node, List.append_assoc, List.cons_append] using h
  | case6 l x left right hnlt hx =>
    -- nothing is greater than the key
    obtain ⟨-, -, hl, -⟩ := hsorted.parts
    exact ⟨_, rfl, parted_assemble hleft hright (hl.trans hx) above_nil⟩
  | case7 l x left right hnlt hx rl y hy =>
    obtain ⟨-, hr, hl, -⟩ := hsorted.parts
    obtain ⟨-, -, hrl, -⟩ := hr.parts
    have hbelow : Below key k (Tree.node l x rl).toList :=
      below_append.mpr ⟨hl.trans hx, below_cons.mpr ⟨hx, hrl.trans hy⟩⟩
    refine ⟨_, rfl, ?_⟩
    have h := parted_assemble (x := y) (r := .nil) hleft hright hbelow above_nil
    simpa only [Tree.toList_node, Tree.toList_nil, List.append_assoc, List.cons_append] using h
  | case8 l x left right hnlt hx rl y hy a z b ih =>
    obtain ⟨-, hr, hl, -⟩ := hsorted.parts
    obtain ⟨-, hrr, hrl, -⟩ := hr.parts
    have hbelow : Below key k (Tree.node l x rl).toList :=
      below_append.mpr ⟨hl.trans hx, below_cons.mpr ⟨hx, hrl.trans hy⟩⟩
    obtain ⟨t', ht', h⟩ := ih nofun hrr
      (below_append.mpr ⟨hleft, below_append.mpr ⟨hbelow, below_cons.mpr ⟨hy, below_nil⟩⟩⟩) hright
    refine ⟨t', ht', ?_⟩
    simpa only [LeftSpine.toList, Tree.toList_node, List.append_assoc, List.cons_append,
      List.nil_append] using h
  | case9 l x left right hnlt hx a y b hy ih =>
    obtain ⟨-, hr, hl, -⟩ := hsorted.parts
    obtain ⟨t', ht', h⟩ := ih nofun hr
      (below_append.mpr ⟨hleft, below_append.mpr ⟨hl.trans hx, below_cons.mpr ⟨hx, below_nil⟩⟩⟩)
      hright
    refine ⟨t', ht', ?_⟩
    simpa only [LeftSpine.toList, Tree.toList_node, List.append_assoc, List.cons_append,
      List.nil_append] using h
  | case10 l x r left right hnlt hngt =>
    obtain ⟨-, -, hl, hr⟩ := hsorted.parts
    have hk : key x = k := le_antisymm (not_lt.mp hnlt) (not_lt.mp hngt)
    rw [hk] at hl hr
    exact ⟨_, rfl, parted_assemble hleft hright hl hr⟩

/-- Splaying a tree brings a root to the top that parts its records at the key. -/
theorem splay_parted {t : Tree α} (hne : t ≠ .nil) (hsorted : Sorted key t) :
    ∃ l x r, splay key k t = some (.node l x r) ∧ l.toList ++ x :: r.toList = t.toList ∧
      Below key k l.toList ∧ Above key k r.toList := by
  obtain ⟨t', ht', l, x, r, rfl, hes, hl, hr⟩ :=
    @splayLoop_parted α κ _ key k t [] [] hne hsorted below_nil above_nil
  refine ⟨l, x, r, ht', ?_, hl, hr⟩
  rw [hes]
  exact List.append_nil _

/-- Splaying to the left brings the smallest record to the top. -/
theorem splayMinLoop_spec {t : Tree α} {right : RightSpine α} (hne : t ≠ .nil) :
    ∃ x r, splayMinLoop t right = some (.node .nil x r) ∧
      x :: r.toList = t.toList ++ right.toList := by
  fun_induction splayMinLoop t right with
  | case1 => exact absurd rfl hne
  | case2 x r right =>
    refine ⟨x, right.plug r, rfl, ?_⟩
    rw [toList_plug_right]
    rfl
  | case3 y lr x r right =>
    refine ⟨y, right.plug (.node lr x r), rfl, ?_⟩
    rw [toList_plug_right]
    rfl
  | case4 a z b y lr x r right ih =>
    obtain ⟨w, r', hloop, hes⟩ := ih nofun
    refine ⟨w, r', hloop, hes.trans ?_⟩
    simp only [RightSpine.toList, Tree.toList_node, List.append_assoc, List.cons_append]

/-- The leftmost record is the first. -/
theorem leftmost_eq_head (t : Tree α) : t.leftmost = t.toList.head? := by
  fun_induction Tree.leftmost t with
  | case1 => rfl
  | case2 => rfl
  | case3 l x r hl ih =>
    cases l with
    | nil => exact absurd rfl hl
    | node a y b =>
      rw [ih, Tree.toList_node (.node a y b), Tree.toList_node, List.append_assoc,
        List.head?_append, List.head?_append]
      rfl

theorem isEmpty_iff {t : Tree α} : t.isEmpty = true ↔ t = .nil := by
  cases t with
  | nil => exact iff_of_true rfl rfl
  | node l x r => exact iff_of_false nofun nofun

/-! ## Sequences with a place for a key -/

section Sequences

variable {as bs : List α} {x elm : α}

/-- Finding a key in a sequence that is parted at it. -/
theorem find_parted (has : Below key k as) (hbs : Above key k bs) :
    (as ++ x :: bs).find? (fun y => key y = k) = if k = key x then some x else none := by
  have hnone : as.find? (fun y => key y = k) = none :=
    List.find?_eq_none.mpr fun y hy => by simpa using (has y hy).ne
  have hnone' : bs.find? (fun y => key y = k) = none :=
    List.find?_eq_none.mpr fun y hy => by simpa using (hbs y hy).ne'
  rw [List.find?_append, hnone, Option.none_or, List.find?_cons, hnone']
  by_cases hk : k = key x
  · rw [if_pos hk]
    simp [hk]
  · rw [if_neg hk]
    simp [Ne.symm hk]

/-- Taking a key out of it. -/
theorem filter_parted (has : Below key k as) (hbs : Above key k bs) :
    (as ++ x :: bs).filter (fun y => key y ≠ k) =
      if k = key x then as ++ bs else as ++ x :: bs := by
  have hall : as.filter (fun y => key y ≠ k) = as :=
    List.filter_eq_self.mpr fun y hy => by simpa using (has y hy).ne
  have hall' : bs.filter (fun y => key y ≠ k) = bs :=
    List.filter_eq_self.mpr fun y hy => by simpa using (hbs y hy).ne'
  rw [List.filter_append, hall, List.filter_cons, hall']
  by_cases hk : k = key x
  · rw [if_pos hk]
    simp [hk]
  · rw [if_neg hk]
    simp [Ne.symm hk]

/-- The record behind a key. -/
theorem next_parted (has : Below key k as) (hbs : Above key k bs) (hk : k = key x) :
    (as ++ x :: bs).find? (fun y => k < key y) = bs.head? := by
  have hnone : as.find? (fun y => k < key y) = none :=
    List.find?_eq_none.mpr fun y hy => by simpa using (has y hy).le
  rw [List.find?_append, hnone, Option.none_or, List.find?_cons]
  simp only [← hk, lt_irrefl, decide_false]
  cases bs with
  | nil => rfl
  | cons y bs =>
    rw [List.find?_cons]
    simp [hbs y List.mem_cons_self]

/-- A record goes behind those that are below it. -/
theorem insertList_append (has : Below key (key elm) as) :
    Lib.KeyedTree.Tree.insertList key elm (as ++ bs) =
      as ++ Lib.KeyedTree.Tree.insertList key elm bs := by
  induction as with
  | nil => rfl
  | cons y as ih =>
    have hy := below_cons.mp has
    rw [List.cons_append, Lib.KeyedTree.Tree.insertList, if_neg hy.1.not_gt, if_neg hy.1.ne',
      ih hy.2, List.cons_append]

/-- It goes in front of those that are above it. -/
theorem insertList_above (hbs : Above key (key elm) bs) :
    Lib.KeyedTree.Tree.insertList key elm bs = elm :: bs := by
  cases bs with
  | nil => rfl
  | cons y bs => rw [Lib.KeyedTree.Tree.insertList, if_pos (hbs y List.mem_cons_self)]

end Sequences

/-! ## One call -/

section Calls

variable {T : Lib.KeyedTree.Tree key} {t : Tree α}

/-- The root after splaying, in a tree with the elements of `T`. -/
theorem splay_root (h : t.toList = T.toList) (hne : t ≠ .nil) (k : κ) :
    t.isEmpty = false ∧ ∃ l x r, splay key k t = some (.node l x r) ∧
      T.toList = l.toList ++ x :: r.toList ∧ Below key k l.toList ∧ Above key k r.toList := by
  have hsorted : Sorted key t := by
    rw [Sorted, h]
    exact T.sorted
  obtain ⟨l, x, r, ht, hes, hl, hr⟩ := splay_parted (k := k) hne hsorted
  refine ⟨?_, l, x, r, ht, h.symm.trans hes.symm, hl, hr⟩
  rw [← Bool.not_eq_true, isEmpty_iff]
  exact hne

theorem toList_eq_nil_of (h : t.toList = T.toList) (ht : t = .nil) : T.toList = [] := by
  rw [← h, ht]
  rfl

/-- `SPLAY_FIND` finds what the table has, and keeps the records. -/
theorem find_refines (h : t.toList = T.toList) (k : κ) :
    ∃ t', find key k t = some (T.find k, t') ∧ t'.toList = T.toList := by
  by_cases hnil : t = .nil
  · refine ⟨t, ?_, h⟩
    rw [find, if_pos (isEmpty_iff.mpr hnil), Lib.KeyedTree.Tree.find, toList_eq_nil_of h hnil]
    rfl
  · obtain ⟨hne, l, x, r, hsplay, hes, hl, hr⟩ := splay_root h hnil k
    refine ⟨.node l x r, ?_, hes.symm⟩
    rw [find, hne, hsplay, Lib.KeyedTree.Tree.find, hes, find_parted hl hr]
    rfl

/-- `SPLAY_INSERT` inserts what is not there. -/
theorem insert_refines (h : t.toList = T.toList) (elm : α) :
    ∃ t', insert key elm t = some (T.find (key elm), t') ∧
      t'.toList = (T.insert elm).toList := by
  by_cases hnil : t = .nil
  · refine ⟨.node .nil elm .nil, ?_, ?_⟩
    · rw [insert, if_pos (isEmpty_iff.mpr hnil), Lib.KeyedTree.Tree.find, toList_eq_nil_of h hnil]
      rfl
    · rw [Lib.KeyedTree.Tree.toList_insert, toList_eq_nil_of h hnil]
      rfl
  · obtain ⟨hne, l, x, r, hsplay, hes, hl, hr⟩ := splay_root h hnil (key elm)
    rw [insert, hne, hsplay, Lib.KeyedTree.Tree.find, Lib.KeyedTree.Tree.toList_insert, hes,
      find_parted hl hr]
    dsimp only [Option.bind_eq_bind, Option.bind_some, Bool.false_eq_true, if_false]
    rw [insertList_append hl]
    by_cases hlt : key elm < key x
    · refine ⟨.node l elm (.node .nil x r), ?_, ?_⟩
      · rw [if_pos hlt, if_neg hlt.ne]
        rfl
      · rw [Lib.KeyedTree.Tree.insertList, if_pos hlt]
        rfl
    · by_cases hgt : key x < key elm
      · refine ⟨.node (.node l x .nil) elm r, ?_, ?_⟩
        · rw [if_neg hlt, if_pos hgt, if_neg hgt.ne']
          rfl
        · rw [Lib.KeyedTree.Tree.insertList, if_neg hlt, if_neg hgt.ne', insertList_above hr]
          simp only [Tree.toList_node, Tree.toList_nil, List.append_assoc, List.singleton_append]
      · have hkey : key elm = key x := le_antisymm (not_lt.mp hgt) (not_lt.mp hlt)
        refine ⟨.node l x r, ?_, ?_⟩
        · rw [if_neg hlt, if_neg hgt, if_pos hkey]
          rfl
        · rw [Lib.KeyedTree.Tree.insertList, if_neg hlt, if_pos hkey]
          rfl

/-- `SPLAY_REMOVE` removes what is there. -/
theorem remove_refines (h : t.toList = T.toList) (k : κ) :
    ∃ t', remove key k t = some ((T.find k).isSome, t') ∧
      t'.toList = (T.filter fun y => key y ≠ k).toList := by
  by_cases hnil : t = .nil
  · refine ⟨t, ?_, ?_⟩
    · rw [remove, if_pos (isEmpty_iff.mpr hnil), Lib.KeyedTree.Tree.find, toList_eq_nil_of h hnil]
      rfl
    · rw [Lib.KeyedTree.Tree.toList_filter, toList_eq_nil_of h hnil, h, toList_eq_nil_of h hnil]
      rfl
  · obtain ⟨hne, l, x, r, hsplay, hes, hl, hr⟩ := splay_root h hnil k
    have hsorted : Sorted key l := by
      have := T.sorted
      rw [hes] at this
      exact (List.pairwise_append.mp this).1
    rw [remove, hne, hsplay, Lib.KeyedTree.Tree.find, hes, find_parted hl hr,
      Lib.KeyedTree.Tree.toList_filter, hes, filter_parted hl hr]
    dsimp only [Option.bind_eq_bind, Option.bind_some, Bool.false_eq_true, if_false]
    by_cases hk : k = key x
    · rw [if_pos hk, if_pos hk, if_pos hk]
      by_cases hl' : l = .nil
      · refine ⟨r, ?_, ?_⟩
        · rw [if_pos (isEmpty_iff.mpr hl')]
          rfl
        · rw [hl']
          rfl
      · -- the greatest element of the left subtree comes to its root
        obtain ⟨a, y, b, hsplay', hes', -, hb⟩ := splay_parted (k := k) hl' hsorted
        have hbnil : b.toList = [] := by
          apply List.eq_nil_iff_forall_not_mem.mpr
          intro z hz
          have hmem : z ∈ l.toList := by
            rw [← hes']
            exact List.mem_append_right _ (List.mem_cons_of_mem _ hz)
          exact lt_asymm (hb z hz) (hl z hmem)
        refine ⟨.node a y r, ?_, ?_⟩
        · rw [if_neg (mt isEmpty_iff.mp hl'), hsplay']
          rfl
        · rw [← hes', hbnil]
          simp only [Tree.toList_node, List.append_assoc, List.singleton_append]
    · rw [if_neg hk, if_neg hk, if_neg hk]
      exact ⟨.node l x r, rfl, rfl⟩

/-- `SPLAY_MIN` is the first record. -/
theorem min_refines (h : t.toList = T.toList) :
    ∃ t', min t = some (T.toList.head?, t') ∧ t'.toList = T.toList := by
  by_cases hnil : t = .nil
  · refine ⟨t, ?_, h⟩
    rw [min, if_pos (isEmpty_iff.mpr hnil), toList_eq_nil_of h hnil]
    rfl
  · obtain ⟨x, r, hloop, hes⟩ := @splayMinLoop_spec α t [] hnil
    rw [RightSpine.toList, List.append_nil, h] at hes
    refine ⟨.node .nil x r, ?_, hes⟩
    rw [min, if_neg (mt isEmpty_iff.mp hnil), hloop, ← hes]
    rfl

/-- `SPLAY_NEXT` is for elements of the tree. -/
theorem next_refines (h : t.toList = T.toList) {k : κ} (hk : k ∈ T.keys) :
    ∃ t', next key k t = some (T.toList.find? fun y => k < key y, t') ∧
      t'.toList = T.toList := by
  have hnil : t ≠ .nil := by
    rintro rfl
    rw [Lib.KeyedTree.Tree.keys, toList_eq_nil_of h rfl] at hk
    cases hk
  obtain ⟨-, l, x, r, hsplay, hes, hl, hr⟩ := splay_root h hnil k
  have hx : k = key x := by
    obtain ⟨y, hy, rfl⟩ := Lib.KeyedTree.Tree.mem_keys.mp hk
    rw [hes] at hy
    rcases List.mem_append.mp hy with hy | hy
    · exact absurd (hl y hy) (lt_irrefl _)
    · rcases List.mem_cons.mp hy with rfl | hy
      · rfl
      · exact absurd (hr y hy) (lt_irrefl _)
  refine ⟨.node l x r, ?_, hes.symm⟩
  rw [next, hsplay, hes, next_parted hl hr hx, ← leftmost_eq_head]
  exact if_pos hx

end Calls

/-! ## Loops -/

section Loops

variable {T : Lib.KeyedTree.Tree key} {t : Tree α}

/-- The records of a table are in order on both sides of one. -/
theorem parted_at {as bs : List α} {x : α} (hT : T.toList = as ++ x :: bs) :
    Below key (key x) as ∧ Above key (key x) bs := by
  have hsorted := T.sorted
  rw [hT] at hsorted
  obtain ⟨-, hxb, habove⟩ := List.pairwise_append.mp hsorted
  exact ⟨fun y hy => habove y hy x List.mem_cons_self, (List.pairwise_cons.mp hxb).1⟩

/-- The element behind the `x` of a tree is the next one. -/
theorem next_at {as bs : List α} {x : α} (h : t.toList = T.toList)
    (hT : T.toList = as ++ x :: bs) :
    ∃ t', next key (key x) t = some (bs.head?, t') ∧ t'.toList = T.toList := by
  obtain ⟨has, hbs⟩ := parted_at hT
  have hk : key x ∈ T.keys := by
    apply Lib.KeyedTree.Tree.mem_keys.mpr
    refine ⟨x, ?_, rfl⟩
    rw [hT]
    exact List.mem_append_right _ List.mem_cons_self
  obtain ⟨t', ht', hes⟩ := next_refines h hk
  refine ⟨t', ?_, hes⟩
  rw [ht', hT, next_parted has hbs rfl]

/-- The `x` of a tree is removed. -/
theorem remove_at {as bs : List α} {x : α} (h : t.toList = T.toList)
    (hT : T.toList = as ++ x :: bs) :
    ∃ (t' : Tree α) (T' : Lib.KeyedTree.Tree key), remove key (key x) t = some (true, t') ∧
      t'.toList = T'.toList ∧ T'.toList = as ++ bs := by
  obtain ⟨has, hbs⟩ := parted_at hT
  obtain ⟨t', ht', hes⟩ := remove_refines h (key x)
  refine ⟨t', _, ?_, hes, ?_⟩
  · rw [ht', Lib.KeyedTree.Tree.find, hT, find_parted has hbs, if_pos rfl]
    rfl
  · rw [Lib.KeyedTree.Tree.toList_filter, hT, filter_parted has hbs, if_pos rfl]

/-- `SPLAY_FOREACH` visits the records that are left, in order; the induction is on their number. -/
theorem foreachFrom_visits {σ : Type*} {body : α → σ → Option σ} {n : ℕ} {as es : List α}
    {s : σ} (h : t.toList = T.toList) (hT : T.toList = as ++ es) (hn : es.length ≤ n) :
    ∃ t', t'.toList = T.toList ∧ foreachFrom key body n es.head? t s =
      (es.foldlM (fun s x => body x s) s).map fun s => (t', s) := by
  induction es generalizing as n t s with
  | nil =>
    refine ⟨t, h, ?_⟩
    cases n <;> rfl
  | cons x es ih =>
    cases n with
    | zero => cases hn
    | succ n =>
      obtain ⟨t₁, hnext, ht₁⟩ := next_at h hT
      rw [List.head?_cons, foreachFrom, List.foldlM_cons]
      cases hbody : body x s with
      | none => exact ⟨t₁, ht₁, rfl⟩
      | some s₁ =>
        have hT' : T.toList = (as ++ [x]) ++ es := by
          rw [hT, List.append_assoc, List.singleton_append]
        obtain ⟨t', ht', hrest⟩ := ih (s := s₁) ht₁ hT' (Nat.le_of_succ_le_succ hn)
        refine ⟨t', ht', ?_⟩
        rw [hnext]
        exact hrest

/-- `SPLAY_FOREACH` visits each element once, in order, and leaves all of them there. -/
theorem foreach_visits {σ : Type*} {body : α → σ → Option σ} {n : ℕ} {s : σ}
    (h : t.toList = T.toList) (hn : T.toList.length ≤ n) :
    ∃ t', t'.toList = T.toList ∧ foreach key body n t s =
      (T.toList.foldlM (fun s x => body x s) s).map fun s => (t', s) := by
  obtain ⟨t₁, hmin, ht₁⟩ := min_refines h
  obtain ⟨t', ht', hfrom⟩ := foreachFrom_visits (s := s) ht₁
    (List.nil_append T.toList).symm hn
  refine ⟨t', ht', ?_⟩
  rw [foreach, hmin]
  exact hfrom

end Loops

/-! ## Many calls -/

/-- What a call has to do. `SPLAY_NEXT` is for elements of the tree. -/
def tableCall (T : Lib.KeyedTree.Tree key) :
    Call α κ → Option (Reply α × Lib.KeyedTree.Tree key)
  | .find k => some (.element (T.find k), T)
  | .insert elm => some (.element (T.find (key elm)), T.insert elm)
  | .remove k => some (.removed (T.find k).isSome, T.filter fun y => key y ≠ k)
  | .min => some (.element T.toList.head?, T)
  | .next k =>
    if (T.find k).isSome then some (.element (T.toList.find? fun y => k < key y), T) else none

def tableCalls : List (Call α κ) → Lib.KeyedTree.Tree key →
    Option (List (Reply α) × Lib.KeyedTree.Tree key)
  | [], T => some ([], T)
  | c :: cs, T => do
    let (r, T) ← tableCall T c
    let (rs, T) ← tableCalls cs T
    some (r :: rs, T)

/-- The elements of a tree in order, as a table. -/
def Head.table (h : Head key) : Lib.KeyedTree.Tree key := ⟨h.tree.toList, h.sorted⟩

/-- There is no record behind one that is not there. -/
theorem next_eq_none {T : Lib.KeyedTree.Tree key} {t : Tree α} (h : t.toList = T.toList)
    (hk : k ∉ T.keys) : next key k t = none := by
  by_cases hnil : t = .nil
  · subst hnil
    rfl
  · obtain ⟨-, l, x, r, hsplay, hes, -, -⟩ := splay_root h hnil k
    have hx : k ≠ key x := by
      rintro rfl
      apply hk
      apply Lib.KeyedTree.Tree.mem_keys.mpr
      refine ⟨x, ?_, rfl⟩
      rw [hes]
      exact List.mem_append_right _ List.mem_cons_self
    rw [next, hsplay]
    exact if_neg hx

/-- One call. -/
theorem call_refines {T : Lib.KeyedTree.Tree key} {t : Tree α} (h : t.toList = T.toList)
    (c : Call α κ) :
    (tableCall T c = none ∧ call key c t = none) ∨
      ∃ r t' T', tableCall T c = some (r, T') ∧ call key c t = some (r, t') ∧
        t'.toList = T'.toList := by
  cases c with
  | find k =>
    obtain ⟨t', ht', hes⟩ := find_refines h k
    refine .inr ⟨_, t', T, rfl, ?_, hes⟩
    rw [call, ht']
    rfl
  | insert elm =>
    obtain ⟨t', ht', hes⟩ := insert_refines h elm
    refine .inr ⟨_, t', T.insert elm, rfl, ?_, hes⟩
    rw [call, ht']
    rfl
  | remove k =>
    obtain ⟨t', ht', hes⟩ := remove_refines h k
    refine .inr ⟨_, t', _, rfl, ?_, hes⟩
    rw [call, ht']
    rfl
  | min =>
    obtain ⟨t', ht', hes⟩ := min_refines h
    refine .inr ⟨_, t', T, rfl, ?_, hes⟩
    rw [call, ht']
    rfl
  | next k =>
    by_cases hk : k ∈ T.keys
    · obtain ⟨t', ht', hes⟩ := next_refines h hk
      refine .inr ⟨_, t', T, if_pos (Lib.KeyedTree.Tree.find_isSome.mpr hk), ?_, hes⟩
      rw [call, ht']
      rfl
    · refine .inl ⟨if_neg (mt Lib.KeyedTree.Tree.find_isSome.mp hk), ?_⟩
      rw [call, next_eq_none h hk]
      rfl

/-- By induction over the calls, the tree gives what the table does. -/
theorem calls_refine_from {T : Lib.KeyedTree.Tree key} {t : Tree α} (h : t.toList = T.toList)
    (cs : List (Call α κ)) :
    (calls key cs t).map (Prod.map id Tree.toList) =
      (tableCalls cs T).map (Prod.map id Lib.KeyedTree.Tree.toList) := by
  induction cs generalizing t T with
  | nil => exact congrArg (fun es => some (([] : List (Reply α)), es)) h
  | cons c cs ih =>
    rw [calls, tableCalls]
    rcases call_refines h c with ⟨htable, hcall⟩ | ⟨r, t', T', htable, hcall, hes⟩
    · rw [htable, hcall]
      rfl
    · rw [htable, hcall]
      have hrest := ih hes
      dsimp only [Option.bind_eq_bind, Option.bind_some]
      cases hcalls : calls key cs t' with
      | none =>
        rw [hcalls] at hrest
        rw [Option.map_eq_none_iff.mp hrest.symm]
        rfl
      | some p =>
        rw [hcalls] at hrest
        obtain ⟨q, hq, hpq⟩ := Option.map_eq_some_iff.mp hrest.symm
        rw [hq]
        obtain ⟨hrs, hlast⟩ := Prod.mk.inj hpq
        show some (r :: p.1, p.2.toList) = some (r :: q.1, q.2.toList)
        rw [show q.1 = p.1 from hrs, hlast]

/-- However many calls are made of a splay tree, in any order, each of them returns what it
would of the table of the elements, which is what the tree holds afterwards; and a null
pointer is used only where `SPLAY_NEXT` is called with something that is not in the tree. -/
theorem calls_refine (cs : List (Call α κ)) (h : Head key) :
    (calls key cs h.tree).map (Prod.map id Tree.toList) =
      (tableCalls cs h.table).map (Prod.map id Lib.KeyedTree.Tree.toList) :=
  calls_refine_from rfl cs

example : (calls id [.insert 3, .insert 1, .insert 2, .insert 3, .next 1, .remove 2, .min, .find 2]
    (.nil : Tree ℕ)).map Prod.fst = some [.element none, .element none, .element none,
      .element (some 3), .element (some 2), .removed true, .element (some 1), .element none] := by
  decide

end Fdm.Splay
