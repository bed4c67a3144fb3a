import Fdm.Pop3.Defs
import Fdm.Splay.Theorems

/-!
# The trees of the POP3 fetcher

What `pop3-common.c` does with its two splay trees, `cacheq` and `serverq`, call by call.
`Pop3.Defs` has tables in their place.

* `resolveTrees`: the part of `pop3_state_cache3` that weeds out the cache and builds the want
  queue; it does what is said there (`resolveTrees_refines`);
* `freetree_frees`: `pop3_freetree` frees each element once, and ends.
-/

namespace Fdm.Pop3

open Fdm.Fetch

/-- `struct fetch_pop3_tree`. -/
abbrev SplayTree := Splay.Tree FetchPop3Mail

/-! ## The loops -/

/-- The loop that weeds out the cache, from `aux1` on: what is freed, and the two trees. The
first argument bounds the number of rounds. -/
def weedFrom : ℕ → Option FetchPop3Mail → SplayTree → SplayTree →
    Option (List FetchPop3Mail × SplayTree × SplayTree)
  | _, none, serverq, cacheq => some ([], serverq, cacheq)
  | 0, some _, _, _ => none
  | n + 1, some aux2, serverq, cacheq => do
    let (aux1, cacheq) ← Splay.next FetchPop3Mail.uid aux2.uid cacheq
    let (found, serverq) ← Splay.find FetchPop3Mail.uid aux2.uid serverq
    if found.isSome then weedFrom n aux1 serverq cacheq
    else
      let (_, cacheq) ← Splay.remove FetchPop3Mail.uid aux2.uid cacheq
      let (freed, serverq, cacheq) ← weedFrom n aux1 serverq cacheq
      some (aux2 :: freed, serverq, cacheq)

/-- Weed out any mail that doesn't exist. -/
def weedTree (n : ℕ) (serverq cacheq : SplayTree) :
    Option (List FetchPop3Mail × SplayTree × SplayTree) := do
  let (aux1, cacheq) ← Splay.min cacheq
  weedFrom n aux1 serverq cacheq

/-- The `switch` over `data->only`: whether the mail is wanted. -/
def wantsIn (only : FetchOnly) (aux : FetchPop3Mail) (cacheq : SplayTree) :
    Option (Bool × SplayTree) :=
  match only with
  | .all => some (true, cacheq)
  | .new => (Splay.find FetchPop3Mail.uid aux.uid cacheq).map (Prod.map Option.isNone id)
  | .old => (Splay.find FetchPop3Mail.uid aux.uid cacheq).map (Prod.map Option.isSome id)

/-- One round of building the want queue: the cache, the queue and `data->total`. -/
def queueWanted (only : FetchOnly) (aux : FetchPop3Mail)
    (s : SplayTree × List FetchPop3Mail × ℕ) : Option (SplayTree × List FetchPop3Mail × ℕ) := do
  let (wanted, cacheq) ← wantsIn only aux s.1
  if wanted then some (cacheq, insertByIdx aux s.2.1, s.2.2 + 1)
  else some (cacheq, s.2.1, s.2.2)

/-- What `pop3_state_cache3` does with the loaded cache. Neither loop goes on for more rounds
than there are elements. -/
def resolveTrees (only : FetchOnly) (serverq cacheq : SplayTree) (wantq : List FetchPop3Mail)
    (total : ℕ) :
    Option (List FetchPop3Mail × SplayTree × SplayTree × List FetchPop3Mail × ℕ) := do
  let n := serverq.toList.length
  let (freed, serverq, cacheq) ← weedTree cacheq.toList.length serverq cacheq
  let (serverq, s) ← Splay.foreach FetchPop3Mail.uid (queueWanted only) n serverq
    (cacheq, wantq, total)
  some (freed, serverq, s)

/-- `pop3_freetree`: what is freed, and the tree that is left. -/
def freetree : ℕ → SplayTree → Option (List FetchPop3Mail × SplayTree)
  | 0, _ => none
  | n + 1, t =>
    match t.root with
    | none => some ([], t)
    | some aux => do
      let (_, t) ← Splay.remove FetchPop3Mail.uid aux.uid t
      let (freed, t) ← freetree n t
      some (aux :: freed, t)

/-! ## Weeding out -/

variable {S C : FetchPop3Tree} {s c : SplayTree}

/-- From an element of the cache on, with those in front of it dealt with. -/
theorem weedFrom_refines {n : ℕ} {as es : List FetchPop3Mail} (hs : s.toList = S.toList)
    (hc : c.toList = C.toList) (hC : C.toList = as ++ es) (hn : es.length ≤ n) :
    ∃ s' c', weedFrom n es.head? s c =
        some (es.filter fun aux => (S.find aux.uid).isNone, s', c') ∧
      s'.toList = S.toList ∧
      c'.toList = as ++ es.filter fun aux => (S.find aux.uid).isSome := by
  induction es generalizing as n s c C with
  | nil =>
    refine ⟨s, c, ?_, hs, ?_⟩
    · cases n <;> rfl
    · rw [hc, hC]
      rfl
  | cons x es ih =>
    cases n with
    | zero => cases hn
    | succ n =>
      obtain ⟨c₁, hnext, hc₁⟩ := Splay.next_at hc hC
      obtain ⟨s₁, hfind, hs₁⟩ := Splay.find_refines hs x.uid
      have hlen : es.length ≤ n := Nat.le_of_succ_le_succ hn
      rw [List.head?_cons, weedFrom, hnext, hfind]
      dsimp only [Option.bind_eq_bind, Option.bind_some]
      by_cases hfound : (S.find x.uid).isSome = true
      · -- the mail is on the server, and stays in the cache
        have hC' : C.toList = (as ++ [x]) ++ es := by
          rw [hC, List.append_assoc, List.singleton_append]
        obtain ⟨s', c', hweed, hs', hc'⟩ := ih hs₁ hc₁ hC' hlen
        refine ⟨s', c', ?_, hs', ?_⟩
        · have hnone : ¬ (S.find x.uid).isNone = true := by
            rw [Option.isNone_iff_eq_none]
            exact Option.isSome_iff_ne_none.mp hfound
          rw [if_pos hfound, hweed, List.filter_cons, if_neg hnone]
        · rw [hc', List.filter_cons, if_pos hfound, List.append_assoc, List.singleton_append]
      · obtain ⟨c₂, C', hremove, hc₂, hC'⟩ := Splay.remove_at hc₁ hC
        obtain ⟨s', c', hweed, hs', hc'⟩ := ih hs₁ hc₂ hC' hlen
        refine ⟨s', c', ?_, hs', ?_⟩
        · have hnone : (S.find x.uid).isNone = true := by simpa using hfound
          rw [if_neg hfound, hremove, Option.bind_some, hweed, List.filter_cons, if_pos hnone]
          rfl
        · rw [hc', List.filter_cons, if_neg hfound]

theorem weedTree_refines {n : ℕ} (hs : s.toList = S.toList) (hc : c.toList = C.toList)
    (hn : C.toList.length ≤ n) :
    ∃ s' c', weedTree n s c =
        some (C.toList.filter fun aux => (S.find aux.uid).isNone, s', c') ∧
      s'.toList = S.toList ∧ c'.toList = (weed S C).toList := by
  obtain ⟨c₁, hmin, hc₁⟩ := Splay.min_refines hc
  obtain ⟨s', c', hweed, hs', hc'⟩ := weedFrom_refines hs hc₁
    (List.nil_append C.toList).symm hn
  refine ⟨s', c', ?_, hs', hc'⟩
  rw [weedTree, hmin]
  exact hweed

/-! ## The want queue -/

theorem wantsIn_refines (hc : c.toList = C.toList) (only : FetchOnly) (aux : FetchPop3Mail) :
    ∃ c', wantsIn only aux c = some (wants only C aux, c') ∧ c'.toList = C.toList := by
  obtain ⟨c', hfind, hc'⟩ := Splay.find_refines hc aux.uid
  cases only with
  | all => exact ⟨c, rfl, hc⟩
  | new =>
    refine ⟨c', ?_, hc'⟩
    rw [wantsIn, hfind]
    rfl
  | old =>
    refine ⟨c', ?_, hc'⟩
    rw [wantsIn, hfind]
    rfl

theorem queueWanted_refines (hc : c.toList = C.toList) (only : FetchOnly)
    (es wantq : List FetchPop3Mail) (total : ℕ) :
    ∃ c', es.foldlM (fun s x => queueWanted only x s) (c, wantq, total) =
        some (c', (es.filter (wants only C)).foldl (fun q aux => insertByIdx aux q) wantq,
          total + (es.filter (wants only C)).length) ∧
      c'.toList = C.toList := by
  induction es generalizing c wantq total with
  | nil => exact ⟨c, rfl, hc⟩
  | cons x es ih =>
    obtain ⟨c₁, hwants, hc₁⟩ := wantsIn_refines hc only x
    rw [List.foldlM_cons, queueWanted, hwants, List.filter_cons]
    dsimp only [Option.bind_eq_bind, Option.bind_some]
    by_cases hwant : wants only C x = true
    · obtain ⟨c', hrest, hc'⟩ := ih hc₁ (insertByIdx x wantq) (total + 1)
      refine ⟨c', ?_, hc'⟩
      rw [if_pos hwant, if_pos hwant, Option.bind_some, hrest, List.foldl_cons, List.length_cons,
        Nat.add_assoc, Nat.add_comm 1]
    · obtain ⟨c', hrest, hc'⟩ := ih hc₁ wantq total
      refine ⟨c', ?_, hc'⟩
      rw [if_neg hwant, if_neg hwant, Option.bind_some, hrest]

/-- On splay trees, whatever their shapes, `pop3_state_cache3` weeds out the cache and builds
the want queue as it does on tables; it frees the cached mails that are not on the server, and
both trees have their elements still. -/
theorem resolveTrees_refines (only : FetchOnly) (serverq cacheq : Splay.Head FetchPop3Mail.uid)
    (wantq : List FetchPop3Mail) (total : ℕ) :
    ∃ s' c', resolveTrees only serverq.tree cacheq.tree wantq total =
        some (cacheq.tree.toList.filter fun aux => (serverq.table.find aux.uid).isNone, s', c',
          (selection only serverq.table (weed serverq.table cacheq.table)).foldl
            (fun q aux => insertByIdx aux q) wantq,
          total + (selection only serverq.table (weed serverq.table cacheq.table)).length) ∧
      s'.toList = serverq.tree.toList ∧
      c'.toList = (weed serverq.table cacheq.table).toList := by
  obtain ⟨s₁, c₁, hweed, hs₁, hc₁⟩ := weedTree_refines (S := serverq.table)
    (C := cacheq.table) (s := serverq.tree) (c := cacheq.tree) rfl rfl le_rfl
  obtain ⟨s', hs', hforeach⟩ : ∃ s' : SplayTree, s'.toList = serverq.table.toList ∧
      Splay.foreach FetchPop3Mail.uid (queueWanted only) serverq.tree.toList.length s₁
        (c₁, wantq, total) = _ :=
    Splay.foreach_visits hs₁ le_rfl
  obtain ⟨c', hqueue, hc'⟩ := queueWanted_refines hc₁ only serverq.table.toList wantq total
  refine ⟨s', c', ?_, hs', hc'⟩
  have hweed' : weedTree cacheq.tree.toList.length serverq.tree cacheq.tree = _ := hweed
  have hforeach' : Splay.foreach FetchPop3Mail.uid (queueWanted only) serverq.tree.toList.length
    s₁ (c₁, wantq, total) = _ := hforeach
  rw [resolveTrees, hweed']
  dsimp only [Option.bind_eq_bind, Option.bind_some]
  rw [hforeach', hqueue]
  rfl

/-! ## Freeing a tree -/

theorem remove_root {t : SplayTree} {T : FetchPop3Tree} (h : t.toList = T.toList)
    {aux : FetchPop3Mail} (hroot : t.root = some aux) :
    ∃ (t' : SplayTree) (T' : FetchPop3Tree),
      Splay.remove FetchPop3Mail.uid aux.uid t = some (true, t') ∧ t'.toList = T'.toList ∧
      (aux :: T'.toList).Perm T.toList := by
  cases t with
  | nil => cases hroot
  | node l x r =>
    obtain rfl : x = aux := Option.some.inj hroot
    have hT : T.toList = l.toList ++ x :: r.toList := h.symm
    obtain ⟨t', T', hremove, ht', hT'⟩ := Splay.remove_at h hT
    refine ⟨t', T', hremove, ht', ?_⟩
    rw [hT, hT']
    exact List.perm_middle.symm

/-- `pop3_freetree` frees each element of the tree once, and nothing is left of it. -/
theorem freetree_frees (t : Splay.Head FetchPop3Mail.uid) {n : ℕ}
    (hn : t.tree.toList.length < n) :
    ∃ freed, freetree n t.tree = some (freed, .nil) ∧ freed.Perm t.tree.toList := by
  obtain ⟨t, hsorted⟩ := t
  obtain ⟨T, hT⟩ : ∃ T : FetchPop3Tree, t.toList = T.toList := ⟨⟨t.toList, hsorted⟩, rfl⟩
  induction n generalizing t T with
  | zero => cases hn
  | succ n ih =>
    rw [freetree]
    cases hroot : t.root with
    | none =>
      cases t with
      | nil => exact ⟨[], rfl, List.Perm.refl _⟩
      | node l x r => cases hroot
    | some aux =>
      obtain ⟨t', T', hremove, ht', hperm⟩ := remove_root hT hroot
      have hlen : t'.toList.length < n := by
        have := hperm.length_eq
        rw [List.length_cons, ← ht', ← hT] at this
        dsimp only at hn
        omega
      have hsorted' : Splay.Sorted FetchPop3Mail.uid t' := by
        rw [Splay.Sorted, ht']
        exact T'.sorted
      obtain ⟨freed, hfree, hfreed⟩ := ih t' hsorted' hlen T' ht'
      refine ⟨aux :: freed, ?_, ?_⟩
      · dsimp only
        rw [hremove]
        dsimp only [Option.bind_eq_bind, Option.bind_some] at hfree ⊢
        rw [hfree]
        rfl
      · dsimp only at hfreed ⊢
        rw [hT]
        refine (List.Perm.cons aux ?_).trans hperm
        rwa [← ht']

end Fdm.Pop3
