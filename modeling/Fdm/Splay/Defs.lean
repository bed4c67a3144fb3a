import Mathlib.Order.Lattice
import Mathlib.Data.List.Pairwise
import Mathlib.Data.Nat.Notation

/-!
# Splay trees

The `SPLAY_` macros of `compat/tree.h`. `cmp` compares keys; an element that is only
compared is given by its key.

* `splayLoop` takes the tree apart on its way down. What `__left` and `__right` collect is
  kept as the two lists of nodes along which they grow, the last node first.
* `none` is the use of a null pointer.
-/

namespace Fdm.Splay

variable {α κ : Type*} [LinearOrder κ]

/-- A tree, by its root. -/
inductive Tree (α : Type*)
  | nil
  | node (left : Tree α) (elm : α) (right : Tree α)
deriving DecidableEq, Repr

namespace Tree

/-- The elements from left to right. -/
def toList : Tree α → List α
  | nil => []
  | node l x r => l.toList ++ x :: r.toList

@[simp] theorem toList_nil : (nil : Tree α).toList = [] := rfl

@[simp] theorem toList_node (l : Tree α) (x : α) (r : Tree α) :
    (node l x r).toList = l.toList ++ x :: r.toList := rfl

/-- `SPLAY_EMPTY`. -/
def isEmpty : Tree α → Bool
  | nil => true
  | node _ _ _ => false

/-- `SPLAY_ROOT`. -/
def root : Tree α → Option α
  | nil => none
  | node _ x _ => some x

/-- The element that `SPLAY_LEFT` leads to in the end. -/
def leftmost : Tree α → Option α
  | nil => none
  | node nil x _ => some x
  | node l _ _ => l.leftmost

end Tree

/-! ## Splaying -/

/-- Nodes whose right links are still to be filled in: the tree that `__left` is the last
node of. -/
abbrev LeftSpine (α : Type*) := List (Tree α × α)

/-- Nodes whose left links are still to be filled in. -/
abbrev RightSpine (α : Type*) := List (α × Tree α)

/-- Fill in the right link of the last node. -/
def LeftSpine.plug : LeftSpine α → Tree α → Tree α
  | [], t => t
  | (l, x) :: s, t => LeftSpine.plug s (.node l x t)

/-- Fill in the left link of the last node. -/
def RightSpine.plug : RightSpine α → Tree α → Tree α
  | [], t => t
  | (x, r) :: s, t => RightSpine.plug s (.node t x r)

/-- `SPLAY_ASSEMBLE`, around the root. -/
def assemble (left : LeftSpine α) (right : RightSpine α) (l : Tree α) (x : α) (r : Tree α) :
    Tree α := .node (left.plug l) x (right.plug r)

/-- The loop of `SPLAY`, from the root on. -/
def splayLoop (key : α → κ) (k : κ) : Tree α → LeftSpine α → RightSpine α → Option (Tree α)
  | .nil, _, _ => none
  | .node l x r, left, right =>
    if k < key x then
      match l with
      | .nil => some (assemble left right .nil x r)
      | .node ll y lr =>
        if k < key y then
          -- SPLAY_ROTATE_RIGHT, which makes `y` the root
          match ll with
          | .nil => some (assemble left right .nil y (.node lr x r))
          | .node a z b => splayLoop key k (.node a z b) left ((y, .node lr x r) :: right)
        else splayLoop key k (.node ll y lr) left ((x, r) :: right)
    else if key x < k then
      match r with
      | .nil => some (assemble left right l x .nil)
      | .node rl y rr =>
        if key y < k then
          -- SPLAY_ROTATE_LEFT
          match rr with
          | .nil => some (assemble left right (.node l x rl) y .nil)
          | .node a z b => splayLoop key k (.node a z b) ((.node l x rl, y) :: left) right
        else splayLoop key k (.node rl y rr) ((l, x) :: left) right
    else some (assemble left right l x r)

/-- `SPLAY`. -/
def splay (key : α → κ) (k : κ) (t : Tree α) : Option (Tree α) := splayLoop key k t [] []

/-- The loop of `SPLAY_MINMAX` for the least element. -/
def splayMinLoop : Tree α → RightSpine α → Option (Tree α)
  | .nil, _ => none
  | .node .nil x r, right => some (assemble [] right .nil x r)
  | .node (.node .nil y lr) x r, right => some (assemble [] right .nil y (.node lr x r))
  | .node (.node (.node a z b) y lr) x r, right =>
    splayMinLoop (.node a z b) ((y, .node lr x r) :: right)

/-! ## The calls

Each of them gives the tree that is left besides what it returns. -/

/-- `SPLAY_FIND`. -/
def find (key : α → κ) (k : κ) (t : Tree α) : Option (Option α × Tree α) :=
  if t.isEmpty then some (none, t)
  else do
    match ← splay key k t with
    | .nil => none
    | .node l x r => some (if k = key x then some x else none, .node l x r)

/-- `SPLAY_INSERT`: `NULL`, or the element that has the key already. -/
def insert (key : α → κ) (elm : α) (t : Tree α) : Option (Option α × Tree α) :=
  if t.isEmpty then some (none, .node .nil elm .nil)
  else do
    match ← splay key (key elm) t with
    | .nil => none
    | .node l x r =>
      if key elm < key x then some (none, .node l elm (.node .nil x r))
      else if key x < key elm then some (none, .node (.node l x .nil) elm r)
      else some (some x, .node l x r)

/-- `SPLAY_REMOVE`; it says whether there was such an element. -/
def remove (key : α → κ) (k : κ) (t : Tree α) : Option (Bool × Tree α) :=
  if t.isEmpty then some (false, t)
  else do
    match ← splay key k t with
    | .nil => none
    | .node l x r =>
      if k = key x then
        if l.isEmpty then some (true, r)
        else
          match ← splay key k l with
          | .nil => none
          | .node l' y _ => some (true, .node l' y r)
      else some (false, .node l x r)

/-- `SPLAY_MIN`. -/
def min (t : Tree α) : Option (Option α × Tree α) :=
  if t.isEmpty then some (none, t) else (splayMinLoop t []).map fun t => (t.root, t)

/-- `SPLAY_NEXT` of the element with that key. Its links are those of the root only when it
is in the tree. -/
def next (key : α → κ) (k : κ) (t : Tree α) : Option (Option α × Tree α) := do
  match ← splay key k t with
  | .nil => none
  | .node l x r => if k = key x then some (r.leftmost, .node l x r) else none

/-- The loop of `SPLAY_FOREACH` from an element on; the body works on a state of its own. The
first argument bounds the number of rounds. -/
def foreachFrom {σ : Type*} (key : α → κ) (body : α → σ → Option σ) :
    ℕ → Option α → Tree α → σ → Option (Tree α × σ)
  | _, none, t, s => some (t, s)
  | 0, some _, _, _ => none
  | n + 1, some x, t, s =>
    (body x s).bind fun s =>
      (next key (key x) t).bind fun p => foreachFrom key body n p.1 p.2 s

/-- `SPLAY_FOREACH`. -/
def foreach {σ : Type*} (key : α → κ) (body : α → σ → Option σ) (n : ℕ) (t : Tree α) (s : σ) :
    Option (Tree α × σ) :=
  (min t).bind fun p => foreachFrom key body n p.1 p.2 s

/-! ## Many calls -/

/-- A call, with what it is given. -/
inductive Call (α κ : Type*)
  | find (k : κ)
  | insert (elm : α)
  | remove (k : κ)
  | min
  | next (k : κ)
deriving DecidableEq, Repr

/-- What a call returns. -/
inductive Reply (α : Type*)
  | element (elm : Option α)
  | removed (found : Bool)
deriving DecidableEq, Repr

def call (key : α → κ) : Call α κ → Tree α → Option (Reply α × Tree α)
  | .find k, t => (find key k t).map (Prod.map .element id)
  | .insert elm, t => (insert key elm t).map (Prod.map .element id)
  | .remove k, t => (remove key k t).map (Prod.map .removed id)
  | .min, t => (min t).map (Prod.map .element id)
  | .next k, t => (next key k t).map (Prod.map .element id)

/-- One call after the other. -/
def calls (key : α → κ) : List (Call α κ) → Tree α → Option (List (Reply α) × Tree α)
  | [], t => some ([], t)
  | c :: cs, t => do
    let (r, t) ← call key c t
    let (rs, t) ← calls key cs t
    some (r :: rs, t)

/-- The elements are in order, and no two of them have the same key. -/
def Sorted (key : α → κ) (t : Tree α) : Prop := t.toList.Pairwise fun x y => key x < key y

/-- `SPLAY_HEAD`: a tree in order. -/
structure Head (key : α → κ) where
  tree : Tree α
  sorted : Sorted key tree

end Fdm.Splay
