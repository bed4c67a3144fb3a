import Mathlib.Order.Defs.LinearOrder
import Mathlib.Order.Basic
import Mathlib.Order.Lattice
import Mathlib.Data.List.Pairwise
import Mathlib.Tactic.Tauto

/-!
# Search trees, seen through their keys

What a program can observe of a self-balancing search tree (a splay tree, a red-black
tree) is the sequence of its elements in key order. `Tree key` is that sequence, with
the order as a field: no two elements of a tree have the same key.

`find`, `insert` (which leaves an element with the same key alone) and `filter` are the
operations; `mem_keys_insert` and its neighbours describe them through the key set.
-/

namespace Lib.KeyedTree

variable {α κ : Type*} [LinearOrder κ]

/-- The elements of a search tree over `key`, in order. -/
structure Tree (key : α → κ) where
  toList : List α
  sorted : toList.Pairwise fun x y => key x < key y

variable {key : α → κ}

namespace Tree

/-- The empty tree. -/
def empty : Tree key := ⟨[], .nil⟩

instance : Inhabited (Tree key) := ⟨empty⟩

/-- The keys of a tree, in order. -/
def keys (t : Tree key) : List κ := t.toList.map key

/-- The element with key `k`. -/
def find (t : Tree key) (k : κ) : Option α := t.toList.find? fun x => key x = k

/-- Insertion into the sequence; an element with the same key stays. -/
def insertList (key : α → κ) (x : α) : List α → List α
  | [] => [x]
  | y :: ys =>
    if key x < key y then x :: y :: ys
    else if key x = key y then y :: ys
    else y :: insertList key x ys

/-- Only the record that is inserted comes in. -/
theorem mem_insertList {x z : α} {l : List α} (h : z ∈ insertList key x l) :
    z = x ∨ z ∈ l := by
  induction l with
  | nil => simpa [insertList] using h
  | cons y ys ih =>
    rw [insertList] at h
    split_ifs at h
    · simpa using h
    · exact .inr h
    · rcases List.mem_cons.mp h with rfl | h
      · exact .inr List.mem_cons_self
      · exact (ih h).imp_right (List.mem_cons_of_mem _)

/-- The order is kept. -/
theorem sorted_insertList {x : α} {l : List α}
    (h : l.Pairwise fun x y => key x < key y) :
    (insertList key x l).Pairwise fun x y => key x < key y := by
  induction l with
  | nil => simp [insertList]
  | cons y ys ih =>
    rw [insertList]
    have hys := List.pairwise_cons.mp h
    split_ifs with hlt heq
    · refine List.pairwise_cons.mpr ⟨fun z hz => ?_, h⟩
      rcases List.mem_cons.mp hz with rfl | hz
      · exact hlt
      · exact hlt.trans (hys.1 z hz)
    · exact h
    · refine List.pairwise_cons.mpr ⟨fun z hz => ?_, ih hys.2⟩
      rcases mem_insertList hz with rfl | hz
      · exact lt_of_le_of_ne (not_lt.mp hlt) (Ne.symm heq)
      · exact hys.1 z hz

/-- Insert an element, unless there is one with its key. -/
def insert (x : α) (t : Tree key) : Tree key :=
  ⟨insertList key x t.toList, sorted_insertList t.sorted⟩

/-- Remove the elements that fail `p`. -/
def filter (p : α → Bool) (t : Tree key) : Tree key :=
  ⟨t.toList.filter p, t.sorted.filter p⟩

/-! ## The operations through the keys -/

@[simp] theorem keys_empty : (empty : Tree key).keys = [] := rfl

@[simp] theorem toList_filter (p : α → Bool) (t : Tree key) :
    (t.filter p).toList = t.toList.filter p := rfl

theorem toList_insert (x : α) (t : Tree key) : (t.insert x).toList = insertList key x t.toList :=
  rfl

/-- A key is there once, as the keys are in order. -/
theorem nodup_keys (t : Tree key) : t.keys.Nodup :=
  List.pairwise_map.mpr (t.sorted.imp ne_of_lt)

/-- The keys behind an insertion. -/
theorem mem_keys_insertList {x : α} {l : List α} {k : κ} :
    k ∈ (insertList key x l).map key ↔ k = key x ∨ k ∈ l.map key := by
  induction l with
  | nil => simp [insertList]
  | cons y ys ih =>
    rw [insertList]
    split_ifs with hlt heq
    · simp
    · simp [heq]
    · simp only [List.map_cons, List.mem_cons, ih]
      tauto

@[simp] theorem mem_keys_insert {x : α} {t : Tree key} {k : κ} :
    k ∈ (t.insert x).keys ↔ k = key x ∨ k ∈ t.keys := mem_keys_insertList

/-- A record with a new key joins the others. -/
theorem mem_insertList_iff {x z : α} {l : List α} (h : key x ∉ l.map key) :
    z ∈ insertList key x l ↔ z = x ∨ z ∈ l := by
  induction l with
  | nil => simp [insertList]
  | cons y ys ih =>
    rw [List.map_cons, List.mem_cons, not_or] at h
    rw [insertList]
    split_ifs with hlt heq
    · simp
    · exact absurd heq h.1
    · simp only [List.mem_cons, ih h.2]
      tauto

/-- The elements after inserting one with a new key. -/
theorem mem_toList_insert {x z : α} {t : Tree key} (h : key x ∉ t.keys) :
    z ∈ (t.insert x).toList ↔ z = x ∨ z ∈ t.toList := mem_insertList_iff h

/-- A key is there if a record has it. -/
theorem mem_keys {t : Tree key} {k : κ} : k ∈ t.keys ↔ ∃ x ∈ t.toList, key x = k :=
  List.mem_map

/-- A key is found if and only if it is there. -/
theorem find_isSome {t : Tree key} {k : κ} : (t.find k).isSome ↔ k ∈ t.keys := by
  simp [find, keys, List.find?_isSome]

/-- What a lookup finds is in the tree under the key asked for. -/
theorem find_eq_some {t : Tree key} {k : κ} {x : α} (h : t.find k = some x) :
    x ∈ t.toList ∧ key x = k := by
  refine ⟨List.mem_of_find?_eq_some h, ?_⟩
  simpa using List.find?_some h

end Tree

end Lib.KeyedTree
