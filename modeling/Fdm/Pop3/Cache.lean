import Fdm.Pop3.Defs
import Mathlib.Data.List.Perm.Basic
import Mathlib.Data.List.TakeWhile

/-!
# The POP3 cache file and the queues

What the operations on the collections of the POP3 fetcher do to the UIDs in them:

* `loadFile_saveFile`: reading a cache file back gives the UIDs it was written with;
* `mem_keys_addCache`, `insertByIdx_perm`, `reindex_map_uid`: the tree and the queues.
-/

namespace Fdm.Pop3

open Fdm.Fetch Lib.Scanf Lib.KeyedTree

/-! ## Reading back what was written -/

theorem isSpace_lt {c : Char} (h : isSpace c = true) : c < '\x21' := by
  simp only [isSpace, Bool.or_eq_true, decide_eq_true_eq] at h
  rcases h with ((((rfl | rfl) | rfl) | rfl) | rfl) | rfl <;> decide

/-- A valid UID has no NUL in it and starts with something that is not white space. -/
theorem validUid_cons {uid : List Char} (h : validUid uid = true) :
    (∃ c s, uid = c :: s ∧ isSpace c = false) ∧ cstr uid = uid ∧ uid.length ≤ 70 := by
  simp only [validUid, Bool.and_eq_true, decide_eq_true_eq, List.all_eq_true] at h
  obtain ⟨⟨hne, hall⟩, hlen⟩ := h
  obtain ⟨c, s, rfl⟩ := List.exists_cons_of_ne_nil hne
  refine ⟨⟨c, s, rfl, ?_⟩, ?_, hlen⟩
  · rw [Bool.eq_false_iff]
    intro hspace
    exact absurd (isSpace_lt hspace) (not_lt.mpr (hall c List.mem_cons_self).1)
  · unfold cstr
    rw [List.takeWhile_eq_self_iff]
    intro x hx
    rw [decide_eq_true_eq]
    rintro rfl
    exact absurd (hall _ hx).1 (by decide)

/-- The tree that reading the entries of `xs` on top of `t` makes. -/
def reloaded (xs : List FetchPop3Mail) (t : FetchPop3Tree) : FetchPop3Tree :=
  xs.foldl (fun t aux => t.insert ⟨aux.uid, 0⟩) t

theorem mem_keys_reloaded {xs : List FetchPop3Mail} {t : FetchPop3Tree} {u : List Char} :
    u ∈ (reloaded xs t).keys ↔ u ∈ t.keys ∨ u ∈ xs.map FetchPop3Mail.uid := by
  induction xs generalizing t with
  | nil => simp [reloaded]
  | cons x xs ih =>
    have hstep : reloaded (x :: xs) t = reloaded xs (t.insert ⟨x.uid, 0⟩) := rfl
    rw [hstep, ih, Tree.mem_keys_insert, List.map_cons, List.mem_cons]
    tauto

/-- The loop of `pop3_load` reads entries one by one, with white space left over from the
entry before in front of each. -/
theorem loadEntries_flatMap {xs : List FetchPop3Mail}
    (hvalid : ∀ x ∈ xs, validUid x.uid = true) {fuel : ℕ} (hfuel : xs.length < fuel)
    (ws : List Char) (hws : ∀ c ∈ ws, isSpace c = true) (t : FetchPop3Tree) :
    loadEntries fuel (ws ++ xs.flatMap saveEntry) t = some (reloaded xs t) := by
  induction xs generalizing fuel ws t with
  | nil =>
    obtain ⟨fuel, rfl⟩ : ∃ k, fuel = k + 1 := ⟨fuel - 1, by simp at hfuel; omega⟩
    have hskip : ws.dropWhile isSpace = [] := List.dropWhile_eq_nil_iff.mpr hws
    simp [loadEntries, scanNum, hskip, takeSign, reloaded]
  | cons x xs ih =>
    obtain ⟨fuel, rfl⟩ : ∃ k, fuel = k + 1 := ⟨fuel - 1, by simp at hfuel; omega⟩
    obtain ⟨⟨c, s, huid, hc⟩, hcstr, hlen⟩ := validUid_cons (hvalid x List.mem_cons_self)
    have hpos : x.uid.length ≠ 0 := by rw [huid]; simp
    -- the text in front of the UID is its length and a space
    have htext : ws ++ (x :: xs).flatMap saveEntry
        = ws ++ (decimal x.uid.length ++ (' ' :: (x.uid ++ ('\n' :: xs.flatMap saveEntry)))) := by
      simp [saveEntry]
    have hnum : scanNum 64 (ws ++ (x :: xs).flatMap saveEntry)
        = some (x.uid.length, ' ' :: (x.uid ++ ('\n' :: xs.flatMap saveEntry))) := by
      rw [htext, scanNum_append_of_isSpace hws]
      apply scanNum_decimal
      · have : (70 : ℕ) < 2 ^ 64 := by decide
        omega
      · intro d hd
        obtain rfl : ' ' = d := by simpa using hd
        decide
    have hskip : (' ' :: (x.uid ++ ('\n' :: xs.flatMap saveEntry))).dropWhile isSpace
        = x.uid ++ ('\n' :: xs.flatMap saveEntry) := by
      rw [List.dropWhile_cons_of_pos (by decide), huid, List.cons_append,
        List.dropWhile_cons_of_neg (by simp [hc])]
    have hrest : loadEntries fuel ('\n' :: xs.flatMap saveEntry) (t.insert ⟨x.uid, 0⟩)
        = some (reloaded xs (t.insert ⟨x.uid, 0⟩)) := by
      refine ih (fun y hy => hvalid y (List.mem_cons_of_mem _ hy)) ?_ ['\n'] (by simp [isSpace]) _
      simp at hfuel
      omega
    rw [loadEntries, hnum]
    simp only [hskip]
    rw [if_neg (by simp [hpos]), List.take_left, List.drop_left, hcstr, hrest]
    rfl

/-- Reading a cache file gives back the UIDs it was written with. -/
theorem loadFile_saveFile {t : FetchPop3Tree}
    (hvalid : ∀ u ∈ t.keys, validUid u = true) :
    ∃ t', loadFile (saveFile t) .empty = some t' ∧ ∀ u, u ∈ t'.keys ↔ u ∈ t.keys := by
  have hv : ∀ x ∈ t.toList, validUid x.uid = true := fun x hx =>
    hvalid _ (Tree.mem_keys.mpr ⟨x, hx, rfl⟩)
  -- every entry takes at least one character, so the bound on their number is enough
  have hlen : t.toList.length ≤ (saveFile t).length := by
    rw [saveFile]
    induction t.toList with
    | nil => simp
    | cons x xs ih =>
      have hentry : 1 ≤ (saveEntry x).length := by simp [saveEntry]; omega
      rw [List.flatMap_cons, List.length_append, List.length_cons]
      omega
  refine ⟨reloaded t.toList .empty, ?_, fun u => ?_⟩
  · exact loadEntries_flatMap hv (by omega) [] (by simp) _
  · rw [mem_keys_reloaded, Tree.keys_empty]
    simp [Tree.keys]

/-! ## The cache tree -/

@[simp] theorem mem_keys_addCache {aux : FetchPop3Mail} {t : FetchPop3Tree} {u : List Char} :
    u ∈ (addCache aux t).keys ↔ u = aux.uid ∨ u ∈ t.keys := by
  unfold addCache
  split_ifs with h
  · exact Tree.mem_keys_insert
  · have hmem : aux.uid ∈ t.keys := by
      rw [← Tree.find_isSome]
      simpa [Option.isNone_iff_eq_none, Option.isSome_iff_ne_none] using h
    constructor
    · exact .inr
    · rintro (rfl | hu)
      · exact hmem
      · exact hu

theorem mem_keys_weed {s t : FetchPop3Tree} {u : List Char} :
    u ∈ (weed s t).keys ↔ u ∈ t.keys ∧ u ∈ s.keys := by
  rw [Tree.mem_keys, Tree.mem_keys, weed, Tree.toList_filter]
  constructor
  · rintro ⟨x, hx, rfl⟩
    rw [List.mem_filter, Tree.find_isSome] at hx
    exact ⟨⟨x, hx.1, rfl⟩, hx.2⟩
  · rintro ⟨⟨x, hx, rfl⟩, hs⟩
    refine ⟨x, List.mem_filter.mpr ⟨hx, ?_⟩, rfl⟩
    rwa [Tree.find_isSome]

/-! ## The want queue -/

theorem insertByIdx_perm (aux : FetchPop3Mail) (q : List FetchPop3Mail) :
    (insertByIdx aux q).Perm (aux :: q) := by
  induction q with
  | nil => exact .refl _
  | cons b q ih =>
    rw [insertByIdx]
    split_ifs
    · exact .refl _
    · exact (ih.cons b).trans (.swap aux b q)

theorem foldl_insertByIdx_perm (sel q : List FetchPop3Mail) :
    (sel.foldl (fun q aux => insertByIdx aux q) q).Perm (sel ++ q) := by
  induction sel generalizing q with
  | nil => exact .refl _
  | cons x sel ih =>
    have hinsert : (sel ++ insertByIdx x q).Perm (sel ++ (x :: q)) :=
      (insertByIdx_perm x q).append_left sel
    exact ((ih _).trans hinsert).trans List.perm_middle

/-- What is selected is a part of what the server lists. -/
theorem selection_sublist (only : FetchOnly) (serverq cacheq : FetchPop3Tree) :
    (selection only serverq cacheq).Sublist serverq.toList := List.filter_sublist

/-- Re-indexing keeps the UIDs that are still on the server. -/
theorem reindex_map_uid (serverq : FetchPop3Tree) (q : List FetchPop3Mail) :
    (reindex serverq q).map FetchPop3Mail.uid
      = (q.map FetchPop3Mail.uid).filter fun u => (serverq.find u).isSome := by
  induction q with
  | nil => rfl
  | cons x q ih =>
    unfold reindex at ih ⊢
    rw [List.filterMap_cons, List.map_cons]
    cases h : serverq.find x.uid with
    | none => simpa [h] using ih
    | some s => simpa [h] using ih

theorem reindex_length_le (serverq : FetchPop3Tree) (q : List FetchPop3Mail) :
    (reindex serverq q).length ≤ q.length := List.length_filterMap_le _ _

/-- An entry that re-indexing leaves has the number of its UID on the server. -/
theorem mem_reindex {serverq : FetchPop3Tree} {q : List FetchPop3Mail} {aux : FetchPop3Mail}
    (h : aux ∈ reindex serverq q) : aux ∈ serverq.toList := by
  obtain ⟨x, -, hx⟩ := List.mem_filterMap.mp h
  obtain ⟨s, hs, rfl⟩ := Option.map_eq_some_iff.mp hx
  obtain ⟨hmem, huid⟩ := Tree.find_eq_some hs
  rw [← huid]
  exact hmem

end Fdm.Pop3
