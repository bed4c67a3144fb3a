import Fdm.Attach.Theorems
import Fdm.Regexp
import Mathlib.Algebra.GroupWithZero.Nat

/-!
# The walk over a tree of attachments

`attach_visit` goes from one attachment to the next with the links in memory and no stack: down
to the first child, else on to the next sibling, else up one level and on from there. A walk that
has to go up more than one level at once ends there.

* `everyNode_iff`: over which trees the walk is complete;
* `attachments_visited`: over those that `attach_build` makes it is.
-/

namespace Fdm.Attach

open Regexp (MatchResult)

/-! ## The code -/

/-- `struct attach` in memory, as far as the walk and the conditions read it: `first` is the head
of `children` and `next` the link in `entry`. `type` is never NULL. -/
structure Node where
  size : ℕ := 0
  type : List Char := []
  name : Option (List Char) := none
  parent : Option ℕ := none
  first : Option ℕ := none
  next : Option ℕ := none

/-- The nodes in memory. -/
abbrev Heap : Type := ℕ → Node

/-- `attach_visit`; the counter is none for NULL. -/
def attachVisit (heap : Heap) : Option ℕ → Option UInt32 → Option ℕ × Option UInt32
  | none, n => (none, n)
  | some atr, n =>
    match (heap atr).first with
    | none =>
      match (heap atr).next with
      | none => ((heap atr).parent.bind fun up => (heap up).next, n.map (· - 1))
      | some atn => (some atn, n)
    | some child => (some child, n.map (· + 1))

/-- The loop of `attach_log`: the nodes that it sees, each with the counter. There is no result
if the first argument is too low to reach NULL. -/
def visits (heap : Heap) :
    ℕ → Option ℕ → Option UInt32 → Option (List (ℕ × Option UInt32))
  | _, none, _ => some []
  | 0, some _, _ => none
  | fuel + 1, some atr, n =>
    (visits heap fuel (attachVisit heap (some atr) n).1
      (attachVisit heap (some atr) n).2).map ((atr, n) :: ·)

/-- `enum cmp`. -/
inductive Cmp
  | eq
  | ne
  | lt
  | gt
deriving DecidableEq, Repr

/-- `op` of `struct match_attachment_data`. -/
inductive Op
  | count
  | totalsize
  | anysize
  | anytype
  | anyname
deriving DecidableEq, Repr

/-- `struct match_attachment_data`. The last three are its union. -/
structure MatchData where
  op : Op
  cmp : Cmp := .eq
  size : ℕ := 0
  num : ℤ := 0
  str : List Char := []

def ofBool (b : Bool) : MatchResult := if b then .matchTrue else .matchFalse

/-- `data->cmp` for the number of attachments. -/
def cmpNum (data : MatchData) (n : UInt32) : MatchResult :=
  match data.cmp with
  | .eq => ofBool (n.toNat = data.num)
  | .ne => ofBool (n.toNat ≠ data.num)
  | .lt => ofBool (n.toNat < data.num)
  | .gt => ofBool (n.toNat > data.num)

/-- `data->cmp` for a size: only `<` and `>` are there. -/
def cmpSize (data : MatchData) (size : ℕ) : Option Bool :=
  match data.cmp with
  | .lt => some (size < data.size)
  | .gt => some (size > data.size)
  | _ => none

section

variable (fnmatch : List Char → List Char → Bool) (replacestr : List Char → List Char)

/-- The loop of `match_attachment_match` that counts. -/
def countLoop (heap : Heap) : ℕ → Option ℕ → UInt64 → UInt32 → Option (UInt64 × UInt32)
  | _, none, size, n => some (size, n)
  | 0, some _, _, _ => none
  | fuel + 1, some atr, size, n =>
    countLoop heap fuel (attachVisit heap (some atr) none).1
      (size + UInt64.ofNat (heap atr).size) (n + 1)

/-- The body of the other loop: what it returns if it does. -/
def anyTest (data : MatchData) (value : List Char) (atr : Node) : Option MatchResult :=
  match data.op with
  | .anysize =>
    match cmpSize data atr.size with
    | none => some .matchError
    | some true => some .matchTrue
    | some false => none
  | .anytype => if fnmatch value atr.type then some .matchTrue else none
  | .anyname =>
    match atr.name with
    | none => none
    | some name => if fnmatch value name then some .matchTrue else none
  | _ => some .matchError

/-- The loop of `match_attachment_match` that looks for one attachment. -/
def anyLoop (heap : Heap) (test : Node → Option MatchResult) : ℕ → Option ℕ → Option MatchResult
  | _, none => some .matchFalse
  | 0, some _ => none
  | fuel + 1, some atr =>
    match test (heap atr) with
    | some ret => some ret
    | none => anyLoop heap test fuel (attachVisit heap (some atr) none).1

/-- `match_attachment_match` once the attachments are there. `replacestr` replaces with the tags
and the matches of the mail. -/
def matchAttachment (heap : Heap) (fuel : ℕ) (data : MatchData) (attach : Option ℕ) :
    Option MatchResult :=
  match data.op with
  | .count => (countLoop heap fuel attach 0 0).map fun (_, n) => cmpNum data n
  | .totalsize =>
    (countLoop heap fuel attach 0 0).map fun (size, _) =>
      (cmpSize data size.toNat).elim .matchError ofBool
  | _ =>
    if attach = none then some .matchFalse
    else anyLoop heap (anyTest fnmatch data (replacestr data.str)) fuel attach

/-! ## What is walked over -/

mutual

/-- The nodes of a tree in order, parents first, with their depths. -/
def preorder (d : ℕ) : Attach → List (Attach × ℕ)
  | ⟨addr, parent, idx, off, size, body, type, name, children⟩ =>
    (⟨addr, parent, idx, off, size, body, type, name, children⟩, d) ::
      preorderInside (d + 1) children

/-- The same for some trees. -/
def preorderInside (d : ℕ) : List Attach → List (Attach × ℕ)
  | [] => []
  | atr :: ats => preorder d atr ++ preorderInside d ats

end

/-- The nodes of a tree. -/
def nodes (atr : Attach) : List Attach := (preorder 0 atr).map Prod.fst

/-- What a node has in memory. -/
def cell (atr : Attach) (next : Option ℕ) : Node where
  size := atr.size
  type := atr.type
  name := atr.name
  parent := atr.parent
  first := atr.children.head?.map Attach.addr
  next := next

mutual

/-- A tree is in memory, below a node `up` and in front of its sibling `next`. -/
def Holds (heap : Heap) (up next : Option ℕ) : Attach → Prop
  | ⟨addr, parent, idx, off, size, body, type, name, children⟩ =>
    parent = up ∧ heap addr = cell ⟨addr, parent, idx, off, size, body, type, name, children⟩ next ∧
      HoldsInside heap addr children

/-- The children of a node are in memory. -/
def HoldsInside (heap : Heap) (addr : ℕ) : List Attach → Prop
  | [] => True
  | atr :: ats =>
    Holds heap (some addr) (ats.head?.map Attach.addr) atr ∧ HoldsInside heap addr ats

end

/-- A tree in memory: different nodes are at different places. -/
structure Layout (root : Attach) where
  heap : Heap
  holds : Holds heap none none root
  nodup : (addrs root).Nodup

/-- The walk from the root sees every node once, parents first, with the counter at its depth,
and then it ends. -/
def VisitsEvery {root : Attach} (t : Layout root) : Prop :=
  ∃ fuel l, visits t.heap fuel (some root.addr) (some 0) = some l ∧ (l.map Prod.fst).Nodup ∧
    l.map (fun (atr, n) => (atr, n.map UInt32.toNat)) =
      (preorder 0 root).map fun (atr, d) => (atr.addr, some d)

/-- What a condition says about some attachments. -/
def verdict (data : MatchData) (ats : List Attach) : MatchResult :=
  match data.op with
  | .count => cmpNum data (UInt32.ofNat ats.length)
  | .totalsize =>
    (cmpSize data ((ats.map Attach.size).sum % 2 ^ 64)).elim .matchError ofBool
  | .anysize =>
    match data.cmp with
    | .lt => ofBool (ats.any fun atr => atr.size < data.size)
    | .gt => ofBool (ats.any fun atr => atr.size > data.size)
    | _ => .matchError
  | .anytype => ofBool (ats.any fun atr => fnmatch (replacestr data.str) atr.type)
  | .anyname => ofBool (ats.any fun atr => atr.name.any (fnmatch (replacestr data.str)))

/-- Every condition is about all the nodes of a tree. -/
def ConsidersEvery {root : Attach} (t : Layout root) : Prop :=
  ∀ data, ∃ fuel, matchAttachment fnmatch replacestr t.heap fuel data (some root.addr) =
    some (verdict fnmatch replacestr data (nodes root))

end

/-- A node without children or with a leaf as its last child. -/
def EndsInLeaf (atr : Attach) : Prop := ∀ c ∈ atr.children.getLast?, c.children = []

mutual

/-- Every node with a sibling behind it ends in a leaf. -/
def Climbable : Attach → Prop
  | ⟨_, _, _, _, _, _, _, _, children⟩ => ClimbableInside children

/-- The same for the children of a node. -/
def ClimbableInside : List Attach → Prop
  | [] => True
  | atr :: ats => (ats ≠ [] → EndsInLeaf atr) ∧ Climbable atr ∧ ClimbableInside ats

end

/-! ## Loops over the walk -/

/-- A walk is the same whatever bound lets it end. -/
theorem visits_unique {heap : Heap} {fuel fuel' : ℕ} {atr : Option ℕ} {n : Option UInt32}
    (h : visits heap fuel atr n = some l) (h' : visits heap fuel' atr n = some l') : l = l' := by
  induction fuel generalizing fuel' atr n l l' with
  | zero =>
    cases atr with
    | none =>
      rw [visits] at h h'
      exact Option.some.inj (h.symm.trans h')
    | some a => cases h
  | succ fuel ih =>
    cases atr with
    | none =>
      rw [visits] at h h'
      exact Option.some.inj (h.symm.trans h')
    | some a =>
      cases fuel' with
      | zero => cases h'
      | succ fuel' =>
        rw [visits] at h h'
        obtain ⟨t, ht, rfl⟩ := Option.map_eq_some_iff.mp h
        obtain ⟨t', ht', rfl⟩ := Option.map_eq_some_iff.mp h'
        rw [ih ht ht']

/-- Without a counter there is none afterwards. -/
theorem attachVisit_null (heap : Heap) (atr : ℕ) :
    (attachVisit heap (some atr) none).2 = none := by
  unfold attachVisit
  dsimp only
  split
  · split <;> rfl
  · rfl

/-- The loop that counts adds up what the walk sees. -/
theorem countLoop_visits {heap : Heap} {fuel : ℕ} {atr : Option ℕ} {l : List (ℕ × Option UInt32)}
    (h : visits heap fuel atr none = some l) (size : UInt64) (n : UInt32) :
    countLoop heap fuel atr size n =
      some (size + UInt64.ofNat (l.map fun p => (heap p.1).size).sum,
        n + UInt32.ofNat l.length) := by
  induction fuel generalizing atr l size n with
  | zero =>
    cases atr with
    | none =>
      cases h
      simp [countLoop]
    | some a => cases h
  | succ fuel ih =>
    cases atr with
    | none =>
      cases h
      simp [countLoop]
    | some a =>
      rw [visits, attachVisit_null] at h
      obtain ⟨t, ht, rfl⟩ := Option.map_eq_some_iff.mp h
      have hn : n + 1 + UInt32.ofNat t.length = n + UInt32.ofNat (t.length + 1) := by
        rw [UInt32.ofNat_add, UInt32.add_assoc, UInt32.add_comm 1]
        rfl
      rw [countLoop, ih ht, hn, List.map_cons, List.sum_cons, List.length_cons, UInt64.ofNat_add,
        ← UInt64.add_assoc]

/-- The loop that looks for one attachment returns at the first one of the walk for which its body
does. -/
theorem anyLoop_visits {heap : Heap} (test : Node → Option MatchResult) {fuel : ℕ}
    {atr : Option ℕ} {l : List (ℕ × Option UInt32)} (h : visits heap fuel atr none = some l) :
    anyLoop heap test fuel atr = some ((l.findSome? fun p => test (heap p.1)).getD .matchFalse) := by
  induction fuel generalizing atr l with
  | zero =>
    cases atr with
    | none =>
      cases h
      rfl
    | some a => cases h
  | succ fuel ih =>
    cases atr with
    | none =>
      cases h
      rfl
    | some a =>
      rw [visits, attachVisit_null] at h
      obtain ⟨t, ht, rfl⟩ := Option.map_eq_some_iff.mp h
      rw [anyLoop, List.findSome?_cons]
      cases htest : test (heap a) with
      | some ret => rfl
      | none => exact ih ht

/-! ## The walk over a tree -/

mutual

/-- The walk goes on behind a tree. -/
def out : Attach → Bool
  | ⟨_, _, _, _, _, _, _, _, children⟩ => outInside children

/-- The walk comes from the children of a node to what is behind that node. -/
def outInside : List Attach → Bool
  | [] => true
  | [atr] => atr.children.isEmpty
  | atr :: ats => out atr && outInside ats

end

mutual

/-- What the walk sees of a tree. -/
def trace (d : ℕ) : Attach → List (Attach × ℕ)
  | ⟨addr, parent, idx, off, size, body, type, name, children⟩ =>
    (⟨addr, parent, idx, off, size, body, type, name, children⟩, d) :: traceInside (d + 1) children

/-- The same for the children of a node. -/
def traceInside (d : ℕ) : List Attach → List (Attach × ℕ)
  | [] => []
  | atr :: ats => trace d atr ++ if out atr then traceInside d ats else []

end

/-- The counter at some depth. -/
def countAt (n : Option UInt32) (d : ℕ) : Option UInt32 := n.map (· + UInt32.ofNat d)

/-- The depth goes up by one behind `countAt`. -/
theorem countAt_succ (n : Option UInt32) (d : ℕ) :
    countAt n (d + 1) = (countAt n d).map (· + 1) := by
  cases n with
  | none => rfl
  | some n =>
    show some (n + UInt32.ofNat (d + 1)) = some (n + UInt32.ofNat d + 1)
    rw [UInt32.ofNat_add, UInt32.add_assoc]
    rfl

theorem countAt_pred (n : Option UInt32) (d : ℕ) :
    (countAt n (d + 1)).map (· - 1) = countAt n d := by
  rw [countAt_succ, Option.map_map]
  cases n with
  | none => rfl
  | some n => exact congrArg some (UInt32.add_sub_cancel _ _)

/-- A node as the walk sees it. -/
def seen (n : Option UInt32) (p : Attach × ℕ) : ℕ × Option UInt32 := (p.1.addr, countAt n p.2)

/-- From a leaf the walk goes to the next sibling. -/
theorem attachVisit_next {heap : Heap} {atr : Attach} {next : ℕ}
    (h : heap atr.addr = cell atr (some next)) (hleaf : atr.children = []) (n : Option UInt32) :
    attachVisit heap (some atr.addr) n = (some next, n) := by
  simp [attachVisit, h, cell, hleaf]

/-- From a last leaf it goes up one level, and on from there. -/
theorem attachVisit_up {heap : Heap} {atr : Attach} {up : ℕ}
    (h : heap atr.addr = cell atr none) (hup : atr.parent = some up) (hleaf : atr.children = [])
    (n : Option UInt32) :
    attachVisit heap (some atr.addr) n = ((heap up).next, n.map (· - 1)) := by
  simp [attachVisit, h, cell, hleaf, hup]

/-- From any other node it goes to the first child. -/
theorem attachVisit_child {heap : Heap} {atr c : Attach} {cs : List Attach} {next : Option ℕ}
    (h : heap atr.addr = cell atr next) (hcs : atr.children = c :: cs) (n : Option UInt32) :
    attachVisit heap (some atr.addr) n = (some c.addr, n.map (· + 1)) := by
  simp [attachVisit, h, cell, hcs]

theorem holds_iff {heap : Heap} {up next : Option ℕ} {atr : Attach} :
    Holds heap up next atr ↔
      atr.parent = up ∧ heap atr.addr = cell atr next ∧ HoldsInside heap atr.addr atr.children := by
  cases atr
  rw [Holds]

theorem out_eq (atr : Attach) : out atr = outInside atr.children := by
  cases atr
  rw [out]

theorem trace_eq (d : ℕ) (atr : Attach) :
    trace d atr = (atr, d) :: traceInside (d + 1) atr.children := by
  cases atr
  rw [trace]

theorem preorder_eq (d : ℕ) (atr : Attach) :
    preorder d atr = (atr, d) :: preorderInside (d + 1) atr.children := by
  cases atr
  rw [preorder]

theorem climbable_iff {atr : Attach} : Climbable atr ↔ ClimbableInside atr.children := by
  cases atr
  rw [Climbable]

theorem outInside_cons (atr b : Attach) (ats : List Attach) :
    outInside (atr :: b :: ats) = (out atr && outInside (b :: ats)) := by
  rw [outInside]
  nofun

/-- Of a leaf only the leaf is visited. -/
theorem trace_leaf {atr : Attach} (hleaf : atr.children = []) (d : ℕ) :
    trace d atr = [(atr, d)] := by
  rw [trace_eq, hleaf, traceInside]

theorem out_leaf {atr : Attach} (hleaf : atr.children = []) : out atr = true := by
  rw [out_eq, hleaf, outInside]

variable {heap : Heap} {n : Option UInt32}

mutual

/-- The walk over a tree that is no leaf: behind it, it is at the next sibling or at its end. -/
theorem visits_inner (atr : Attach) (h : Holds heap up next atr) (hne : atr.children ≠ [])
    (d fuel : ℕ) :
    visits heap ((trace d atr).length + fuel) (some atr.addr) (countAt n d) =
      (visits heap fuel (if out atr then next else none) (countAt n d)).map
        ((trace d atr).map (seen n) ++ ·) := by
  match atr with
  | ⟨addr, parent, idx, off, size, body, type, name, []⟩ => exact absurd rfl hne
  | ⟨addr, parent, idx, off, size, body, type, name, c :: cs⟩ =>
    obtain ⟨-, hcell, hinside⟩ := holds_iff.mp h
    have hnext : (heap addr).next = next := by
      rw [hcell]
      rfl
    rw [trace_eq, out_eq, List.length_cons, Nat.add_right_comm, visits,
      attachVisit_child hcell rfl, ← countAt_succ, visits_inside (c :: cs) c cs rfl hinside hnext,
      Option.map_map]
    rfl

/-- The walk over the children of a node: behind them, it is behind that node or at its end. -/
theorem visits_inside {addr : ℕ} {next : Option ℕ} (ats : List Attach) (atr : Attach)
    (rest : List Attach) (hats : ats = atr :: rest) (h : HoldsInside heap addr ats)
    (hnext : (heap addr).next = next) (d fuel : ℕ) :
    visits heap ((traceInside (d + 1) ats).length + fuel) (some atr.addr) (countAt n (d + 1)) =
      (visits heap fuel (if outInside ats then next else none) (countAt n d)).map
        ((traceInside (d + 1) ats).map (seen n) ++ ·) := by
  match ats with
  | [] => cases hats
  | [x] =>
    obtain ⟨rfl, rfl⟩ := List.cons.inj hats
    obtain ⟨⟨hup, hcell, -⟩, -⟩ := And.imp_left holds_iff.mp h
    have htrace : traceInside (d + 1) [x] = trace (d + 1) x := by
      rw [traceInside, traceInside, ite_self, List.append_nil]
    rw [htrace, outInside]
    by_cases hleaf : x.children = []
    · rw [trace_leaf hleaf, List.length_singleton, Nat.add_comm 1, visits,
        attachVisit_up hcell hup hleaf, countAt_pred, hnext, hleaf]
      rfl
    · have hnone : (if x.children.isEmpty then next else none) = none := by
        rw [if_neg (by simpa using hleaf)]
      rw [visits_inner x h.1 hleaf, hnone, List.head?_nil, Option.map_none, ite_self, visits, visits]
  | x :: b :: bs =>
    obtain ⟨rfl, rfl⟩ := List.cons.inj hats
    have hcell := (holds_iff.mp h.1).2.1
    rw [outInside_cons, traceInside]
    by_cases hleaf : x.children = []
    · rw [trace_leaf hleaf, out_leaf hleaf, if_pos rfl, Bool.true_and, List.singleton_append,
        List.length_cons, Nat.add_right_comm, visits, attachVisit_next hcell hleaf,
        visits_inside (b :: bs) b bs rfl h.2 hnext, Option.map_map]
      rfl
    · cases hout : out x with
      | true =>
        rw [if_pos rfl, Bool.true_and, List.length_append, Nat.add_assoc,
          visits_inner x h.1 hleaf, hout, if_pos rfl, List.head?_cons, Option.map_some,
          visits_inside (b :: bs) b bs rfl h.2 hnext, Option.map_map, List.map_append]
        congr 1
        funext l
        simp
      | false =>
        rw [if_neg (by simp), Bool.false_and, List.append_nil, visits_inner x h.1 hleaf, hout,
          if_neg Bool.false_ne_true, if_neg Bool.false_ne_true, visits, visits]

end

/-- The whole walk. -/
theorem visits_root {root : Attach} (t : Layout root) (n : Option UInt32) :
    ∃ fuel, visits t.heap fuel (some root.addr) (countAt n 0) =
      some ((trace 0 root).map (seen n)) := by
  by_cases hleaf : root.children = []
  · obtain ⟨hup, hcell, -⟩ := holds_iff.mp t.holds
    refine ⟨1, ?_⟩
    have hvisit : (attachVisit t.heap (some root.addr) (countAt n 0)).1 = none := by
      simp [attachVisit, hcell, cell, hleaf, hup]
    rw [visits, hvisit, visits, trace_leaf hleaf]
    rfl
  · refine ⟨(trace 0 root).length + 0, ?_⟩
    rw [visits_inner root t.holds hleaf, ite_self, visits, Option.map_some, List.append_nil]

/-! ## When the walk is complete -/

mutual

/-- What is visited is part of the preorder. -/
theorem trace_sublist (d : ℕ) (atr : Attach) : List.Sublist (trace d atr) (preorder d atr) := by
  match atr with
  | ⟨addr, parent, idx, off, size, body, type, name, children⟩ =>
    rw [trace_eq, preorder_eq]
    exact (traceInside_sublist (d + 1) children).cons_cons _

/-- And so it is among siblings. -/
theorem traceInside_sublist (d : ℕ) (ats : List Attach) :
    List.Sublist (traceInside d ats) (preorderInside d ats) := by
  match ats with
  | [] =>
    rw [traceInside, preorderInside]
  | atr :: rest =>
    rw [traceInside, preorderInside]
    apply (trace_sublist d atr).append
    split
    · exact traceInside_sublist d rest
    · apply List.nil_sublist

end

mutual

/-- The walk goes on behind a tree that it climbs out of, when the tree ends in a leaf. -/
theorem out_iff (atr : Attach) (h : Climbable atr) : out atr = true ↔ EndsInLeaf atr := by
  match atr with
  | ⟨addr, parent, idx, off, size, body, type, name, children⟩ =>
    rw [out_eq]
    exact outInside_iff children (climbable_iff.mp h)

/-- The way back from the last of some siblings is found exactly if it is a leaf. -/
theorem outInside_iff (ats : List Attach) (h : ClimbableInside ats) :
    outInside ats = true ↔ ∀ c ∈ ats.getLast?, c.children = [] := by
  match ats with
  | [] => simp [outInside]
  | [atr] => simp [outInside]
  | atr :: b :: rest =>
    obtain ⟨hends, hatr, hrest⟩ := h
    have hout : out atr = true := (out_iff atr hatr).mpr (hends nofun)
    rw [outInside_cons, hout, Bool.true_and, outInside_iff (b :: rest) hrest, List.getLast?_cons_cons]

end

theorem preorder_ne {d : ℕ} {atr : Attach} : (preorder d atr).length ≠ 0 := by
  simp [preorder_eq]

mutual

/-- The walk sees the whole tree exactly if it climbs out of every tree with one behind it. -/
theorem trace_iff (d : ℕ) (atr : Attach) : trace d atr = preorder d atr ↔ Climbable atr := by
  match atr with
  | ⟨addr, parent, idx, off, size, body, type, name, children⟩ =>
    rw [trace_eq, preorder_eq, climbable_iff, ← traceInside_iff (d + 1) children]
    simp

/-- Among siblings the whole preorder is visited exactly if the way back is found. -/
theorem traceInside_iff (d : ℕ) (ats : List Attach) :
    traceInside d ats = preorderInside d ats ↔ ClimbableInside ats := by
  match ats with
  | [] => simp [traceInside, preorderInside, ClimbableInside]
  | [atr] =>
    have hatr := trace_iff d atr
    simp [traceInside, preorderInside, ClimbableInside, hatr]
  | atr :: b :: rest =>
    have hle := (trace_sublist d atr).length_le
    have hlerest := (traceInside_sublist d (b :: rest)).length_le
    rw [traceInside, preorderInside, ClimbableInside, ← traceInside_iff d (b :: rest)]
    constructor
    · intro h
      have hlen := congrArg List.length h
      rw [List.length_append, List.length_append] at hlen
      cases hout : out atr with
      | true =>
        rw [hout, if_pos rfl] at h hlen
        obtain ⟨hatr, hrest⟩ := List.append_inj h (by omega)
        have hclimb := (trace_iff d atr).mp hatr
        exact ⟨fun _ => (out_iff atr hclimb).mp hout, hclimb, hrest⟩
      | false =>
        -- the walk ends before `b`
        rw [hout, if_neg Bool.false_ne_true, List.length_nil, preorderInside,
          List.length_append] at hlen
        have hb : (preorder d b).length ≠ 0 := preorder_ne
        omega
    · rintro ⟨hends, hatr, hrest⟩
      rw [if_pos ((out_iff atr hatr).mpr (hends nofun)), hrest, (trace_iff d atr).mpr hatr]

end

/-! ## What the walk reads -/

mutual

/-- A node of a tree in memory. -/
theorem cell_of_mem (d : ℕ) (atr : Attach) (h : Holds heap up next atr) :
    ∀ p ∈ preorder d atr, ∃ next, heap p.1.addr = cell p.1 next := by
  match atr with
  | ⟨addr, parent, idx, off, size, body, type, name, children⟩ =>
    obtain ⟨-, hcell, hinside⟩ := holds_iff.mp h
    rw [preorder_eq, List.forall_mem_cons]
    exact ⟨⟨next, hcell⟩, cell_of_memInside (d + 1) children hinside⟩

/-- Each node below has its cell in the heap. -/
theorem cell_of_memInside {addr : ℕ} (d : ℕ) (ats : List Attach) (h : HoldsInside heap addr ats) :
    ∀ p ∈ preorderInside d ats, ∃ next, heap p.1.addr = cell p.1 next := by
  match ats with
  | [] =>
    intro p hp
    rw [preorderInside] at hp
    cases hp
  | atr :: rest =>
    intro p hp
    rw [preorderInside] at hp
    rcases List.mem_append.mp hp with hp | hp
    · exact cell_of_mem d atr h.1 p hp
    · exact cell_of_memInside d rest h.2 p hp

end

mutual

/-- The preorder by addresses. -/
theorem preorder_addrs (d : ℕ) (atr : Attach) :
    ((preorder d atr).map fun p => p.1.addr) = addrs atr := by
  match atr with
  | ⟨addr, parent, idx, off, size, body, type, name, children⟩ =>
    rw [preorder_eq, addrs_eq, List.map_cons, preorderInside_addrs (d + 1) children]

theorem preorderInside_addrs (d : ℕ) (ats : List Attach) :
    ((preorderInside d ats).map fun p => p.1.addr) = addrsInside ats := by
  match ats with
  | [] => rw [preorderInside, addrsInside, List.map_nil]
  | atr :: rest =>
    rw [preorderInside, addrsInside, List.map_append, preorder_addrs d atr,
      preorderInside_addrs d rest]

end

/-- The depths of a tree fit into the counter. -/
def Fits (root : Attach) : Prop := ∀ p ∈ preorder 0 root, p.2 < 2 ^ 32

/-- The walk of `attach_log` sees every node with its depth exactly if it climbs out of every tree
with one behind it, and the depths fit into the counter. -/
theorem visitsEvery_iff {root : Attach} (t : Layout root) :
    VisitsEvery t ↔ Climbable root ∧ Fits root := by
  obtain ⟨fuel, hvisits⟩ := visits_root t (some 0)
  have hcount (d : ℕ) : countAt (some 0) d = some (UInt32.ofNat d) := by
    show some (0 + UInt32.ofNat d) = some (UInt32.ofNat d)
    rw [UInt32.zero_add]
  have hstart : countAt (some 0) 0 = some 0 := hcount 0
  rw [hstart] at hvisits
  have hseen (l : List (Attach × ℕ)) :
      (l.map (seen (some 0))).map (fun (atr, n) => (atr, n.map UInt32.toNat)) =
        l.map fun (atr, d) => (atr.addr, some (d % 2 ^ 32)) := by
    rw [List.map_map]
    apply List.map_congr_left
    rintro ⟨atr, d⟩ -
    show (atr.addr, (countAt (some 0) d).map UInt32.toNat) = (atr.addr, some (d % 2 ^ 32))
    rw [hcount, Option.map_some, UInt32.toNat_ofNat']
  have heq : ((trace 0 root).map fun (atr, d) => (atr.addr, some (d % 2 ^ 32))) =
      ((preorder 0 root).map fun (atr, d) => (atr.addr, some d)) ↔
        Climbable root ∧ Fits root := by
    rw [← trace_iff 0 root]
    constructor
    · intro h
      have hlen := congrArg List.length h
      rw [List.length_map, List.length_map] at hlen
      have htrace := (trace_sublist 0 root).eq_of_length hlen
      refine ⟨htrace, fun p hp => ?_⟩
      rw [htrace] at h
      have hp := List.map_inj_left.mp h p hp
      have hmod : p.2 % 2 ^ 32 = p.2 := Option.some.inj (Prod.mk.inj hp).2
      omega
    · rintro ⟨htrace, hfits⟩
      rw [htrace]
      apply List.map_congr_left
      rintro ⟨atr, d⟩ hp
      have hlt : d < 2 ^ 32 := hfits _ hp
      show (atr.addr, some (d % 2 ^ 32)) = (atr.addr, some d)
      rw [Nat.mod_eq_of_lt hlt]
  constructor
  · rintro ⟨fuel', l, hl, -, hmap⟩
    rw [visits_unique hl hvisits, hseen] at hmap
    exact heq.mp hmap
  · intro h
    refine ⟨fuel, _, hvisits, ?_, ?_⟩
    · have haddrs : ((trace 0 root).map (seen (some 0))).map Prod.fst = addrs root := by
        rw [(trace_iff 0 root).mpr h.1, List.map_map]
        exact preorder_addrs 0 root
      rw [haddrs]
      exact t.nodup
    · rw [hseen]
      exact heq.mpr h

/-- Looking for one that a test says yes to. -/
theorem findSome_ofBool {α : Type} (p : α → Bool) (l : List α) :
    ((l.findSome? fun a => if p a then some MatchResult.matchTrue else none).getD .matchFalse) =
      ofBool (l.any p) := by
  induction l with
  | nil => rfl
  | cons a l ih =>
    rw [List.findSome?_cons, List.any_cons]
    cases p a with
    | true => rfl
    | false => exact ih

section

variable (fnmatch : List Char → List Char → Bool) (replacestr : List Char → List Char)

/-- The tests on the nodes of a tree. -/
theorem anyTest_verdict {data : MatchData} (hcount : data.op ≠ .count)
    (htotal : data.op ≠ .totalsize) (atr : Attach) (ats : List Attach) :
    (((atr :: ats).findSome? fun atr =>
        anyTest fnmatch data (replacestr data.str) (cell atr none)).getD .matchFalse) =
      verdict fnmatch replacestr data (atr :: ats) := by
  have htest (p : Attach → Bool) (h : ∀ atr, anyTest fnmatch data (replacestr data.str)
      (cell atr none) = if p atr then some MatchResult.matchTrue else none) :
      (((atr :: ats).findSome? fun atr =>
        anyTest fnmatch data (replacestr data.str) (cell atr none)).getD .matchFalse) =
        ofBool ((atr :: ats).any p) := by
    rw [← findSome_ofBool]
    simp only [h]
  obtain ⟨op, cmp, size, num, str⟩ := data
  cases op with
  | count => exact absurd rfl hcount
  | totalsize => exact absurd rfl htotal
  | anysize =>
    cases cmp with
    | eq => rfl
    | ne => rfl
    | lt =>
      apply htest fun atr => atr.size < size
      intro atr
      by_cases hlt : atr.size < size <;> simp [anyTest, cmpSize, cell, hlt]
    | gt =>
      apply htest fun atr => atr.size > size
      intro atr
      by_cases hlt : atr.size > size <;> simp [anyTest, cmpSize, cell, hlt]
  | anytype =>
    apply htest fun atr => fnmatch (replacestr str) atr.type
    intro atr
    rfl
  | anyname =>
    apply htest fun atr => atr.name.any (fnmatch (replacestr str))
    intro atr
    cases hname : atr.name with
    | none => simp [anyTest, cell, hname]
    | some name => simp [anyTest, cell, hname]

/-- The conditions are about every node of a tree that the walk sees as a whole. -/
theorem considersEvery {root : Attach} (t : Layout root) (h : Climbable root) :
    ConsidersEvery fnmatch replacestr t := by
  obtain ⟨fuel, hvisits⟩ := visits_root t none
  rw [(trace_iff 0 root).mpr h] at hvisits
  have hcell (p : Attach × ℕ) (hp : p ∈ preorder 0 root) :
      ∃ next, t.heap p.1.addr = cell p.1 next := cell_of_mem 0 root t.holds p hp
  have hsize : ((preorder 0 root).map (seen none)).map (fun p => (t.heap p.1).size) =
      (nodes root).map Attach.size := by
    rw [nodes, List.map_map, List.map_map]
    apply List.map_congr_left
    intro p hp
    obtain ⟨next, hnext⟩ := hcell p hp
    show (t.heap p.1.addr).size = p.1.size
    rw [hnext]
    rfl
  have hcount := countLoop_visits hvisits 0 0
  rw [hsize, List.length_map, UInt64.zero_add, UInt32.zero_add] at hcount
  intro data
  refine ⟨fuel, ?_⟩
  have hany (hop : data.op ≠ .count) (hop' : data.op ≠ .totalsize) :
      anyLoop t.heap (anyTest fnmatch data (replacestr data.str)) fuel (some root.addr) =
        some (verdict fnmatch replacestr data (nodes root)) := by
    have hnodes : nodes root = root :: (preorderInside 1 root.children).map Prod.fst := by
      rw [nodes, preorder_eq, List.map_cons]
    have htest : ((preorder 0 root).map fun p =>
          anyTest fnmatch data (replacestr data.str) (t.heap p.1.addr)) =
        (preorder 0 root).map fun p =>
          anyTest fnmatch data (replacestr data.str) (cell p.1 none) := by
      apply List.map_congr_left
      intro p hp
      obtain ⟨next, hnext⟩ := hcell p hp
      rw [hnext]
      rfl
    have hfind := congrArg (List.findSome? id) htest
    rw [List.findSome?_map, List.findSome?_map] at hfind
    rw [anyLoop_visits _ hvisits, hnodes, ← anyTest_verdict fnmatch replacestr hop hop' _ _,
      ← hnodes, nodes, List.findSome?_map, List.findSome?_map]
    exact congrArg (fun r => some (r.getD .matchFalse)) hfind
  cases hop : data.op with
  | count =>
    simp only [matchAttachment, verdict, hop, hcount, Option.map_some, nodes, List.length_map]
  | totalsize =>
    simp only [matchAttachment, verdict, hop, hcount, Option.map_some, UInt64.toNat_ofNat']
  | anysize =>
    simp only [matchAttachment, hop]
    exact hany (by rw [hop]; nofun) (by rw [hop]; nofun)
  | anytype =>
    simp only [matchAttachment, hop]
    exact hany (by rw [hop]; nofun) (by rw [hop]; nofun)
  | anyname =>
    simp only [matchAttachment, hop]
    exact hany (by rw [hop]; nofun) (by rw [hop]; nofun)

end

/-! ## Trees in memory -/

mutual

/-- The children of a node are linked to it. -/
def Linked : Attach → Prop
  | ⟨addr, _, _, _, _, _, _, _, children⟩ => LinkedInside addr children

/-- The same for some trees below a node. -/
def LinkedInside (addr : ℕ) : List Attach → Prop
  | [] => True
  | atr :: ats => atr.parent = some addr ∧ Linked atr ∧ LinkedInside addr ats

end

mutual

/-- What is in memory for a tree. -/
def cells (next : Option ℕ) : Attach → List (ℕ × Node)
  | ⟨addr, parent, idx, off, size, body, type, name, children⟩ =>
    (addr, cell ⟨addr, parent, idx, off, size, body, type, name, children⟩ next) ::
      cellsInside children

/-- What is in memory for the children of a node. -/
def cellsInside : List Attach → List (ℕ × Node)
  | [] => []
  | atr :: ats => cells (ats.head?.map Attach.addr) atr ++ cellsInside ats

end

theorem linked_iff {atr : Attach} : Linked atr ↔ LinkedInside atr.addr atr.children := by
  cases atr
  rw [Linked]

theorem cells_eq (next : Option ℕ) (atr : Attach) :
    cells next atr = (atr.addr, cell atr next) :: cellsInside atr.children := by
  cases atr
  rw [cells]

mutual

/-- There is one cell for each address of the tree. -/
theorem cells_addrs (next : Option ℕ) (atr : Attach) :
    (cells next atr).map Prod.fst = addrs atr := by
  match atr with
  | ⟨addr, parent, idx, off, size, body, type, name, children⟩ =>
    rw [cells_eq, addrs_eq, List.map_cons, cellsInside_addrs children]

theorem cellsInside_addrs (ats : List Attach) :
    (cellsInside ats).map Prod.fst = addrsInside ats := by
  match ats with
  | [] => rw [cellsInside, addrsInside, List.map_nil]
  | atr :: rest =>
    rw [cellsInside, addrsInside, List.map_append, cells_addrs _ atr, cellsInside_addrs rest]

end

mutual

/-- A memory with the nodes of a tree holds it. -/
theorem holds_of_cells (next : Option ℕ) (atr : Attach) (h : Linked atr)
    (hheap : ∀ p ∈ cells next atr, heap p.1 = p.2) : Holds heap atr.parent next atr := by
  match atr with
  | ⟨addr, parent, idx, off, size, body, type, name, children⟩ =>
    rw [cells_eq, List.forall_mem_cons] at hheap
    exact holds_iff.mpr ⟨rfl, hheap.1, holdsInside_of_cells children (linked_iff.mp h) hheap.2⟩

/-- A heap with these cells holds the siblings. -/
theorem holdsInside_of_cells {addr : ℕ} (ats : List Attach) (h : LinkedInside addr ats)
    (hheap : ∀ p ∈ cellsInside ats, heap p.1 = p.2) : HoldsInside heap addr ats := by
  match ats with
  | [] => trivial
  | atr :: rest =>
    obtain ⟨hup, hatr, hrest⟩ := h
    rw [cellsInside] at hheap
    have hfirst := holds_of_cells _ atr hatr fun p hp => hheap p (List.mem_append_left _ hp)
    rw [hup] at hfirst
    exact ⟨hfirst, holdsInside_of_cells rest hrest fun p hp =>
      hheap p (List.mem_append_right _ hp)⟩

end

/-- The memory with some nodes at different places. -/
def heapOf (cs : List (ℕ × Node)) : Heap := fun atr => (cs.lookup atr).getD {}

/-- With different addresses, each cell is found under its own. -/
theorem heapOf_mem {cs : List (ℕ × Node)} (h : (cs.map Prod.fst).Nodup) {p : ℕ × Node}
    (hp : p ∈ cs) : heapOf cs p.1 = p.2 := by
  induction cs with
  | nil => cases hp
  | cons c cs ih =>
    rw [List.map_cons, List.nodup_cons] at h
    unfold heapOf
    rw [List.lookup_cons]
    rcases List.mem_cons.mp hp with rfl | hp
    · simp
    · have hne : (p.1 == c.1) = false := by
        rw [beq_eq_false_iff_ne]
        intro he
        exact h.1 (he ▸ List.mem_map_of_mem hp)
      rw [hne]
      exact ih h.2 hp

/-- A tree whose nodes are linked and have different numbers can be in memory. -/
def Layout.ofLinked {root : Attach} (hlinked : Linked root) (hparent : root.parent = none)
    (hnodup : (addrs root).Nodup) : Layout root where
  heap := heapOf (cells none root)
  holds := by
    have hcells : ((cells none root).map Prod.fst).Nodup := by
      rw [cells_addrs]
      exact hnodup
    have h := holds_of_cells none root hlinked fun p hp => heapOf_mem hcells hp
    rw [hparent] at h
    exact h
  nodup := hnodup

/-! ## The trees of `attach_build` -/

/-- A tree as `attach_get` makes it. -/
structure Built (atr : Attach) : Prop where
  linked : Linked atr
  climbable : Climbable atr
  endsInLeaf : EndsInLeaf atr

/-- The parts that the loop of `attach_get` makes end in a leaf: only a leaf ends the loop. -/
def EndsLoop (last : Bool) (r : List Attach × ℕ × List (List Char)) : Prop :=
  r.2.2 ≠ [] → (r.1 = [] → last = true) ∧ ∀ c ∈ r.1.getLast?, c.children = []

/-- A leaf is built as it should be. -/
theorem built_leaf {atr : Attach} (hleaf : atr.children = []) : Built atr where
  linked := linked_iff.mpr (by simp [hleaf, LinkedInside])
  climbable := climbable_iff.mpr (by simp [hleaf, ClimbableInside])
  endsInLeaf := by simp [EndsInLeaf, hleaf]

/-- What `attach_build` makes of a part without parts has no children. -/
theorem attachLeaf_children {size : ℕ} {b : List Char} {addr off : ℕ} {type : List Char}
    {name : Option (List Char)} {hdr : List (List Char)} {r : Attach × List (List Char) × Bool}
    (h : attachLeaf size b addr off type name hdr = .ok r) : r.1.children = [] := by
  unfold attachLeaf at h
  split at h
  · cases h
  · dsimp only at h
    split at h
    · cases h
    · cases h
      rfl

/-- What the calls make: each part ends in a leaf, and a part that ends the loop around it is one. -/
theorem built (size fuel : ℕ) :
    (∀ b next ptr r, attachGet size fuel b next ptr = .ok r →
      Built r.1 ∧ (r.2.2.2 = true → r.1.children = [])) ∧
    (∀ b stops addr n next ptr last r,
      attachChildren size fuel b stops addr n next ptr last = .ok r →
      LinkedInside addr r.1 ∧ ClimbableInside r.1 ∧ (stops = false → EndsLoop last r)) := by
  induction fuel with
  | zero =>
    constructor
    · intro b next ptr r hr
      rw [attachGet] at hr
      cases hr
    · intro b stops addr n next ptr last r hr
      rw [attachChildren] at hr
      cases hr
  | succ fuel ih =>
    constructor
    · intro b next ptr r hr
      rw [attachGet] at hr
      cases hdr : ptr.dropWhile fun l => !isContentType l with
      | nil =>
        rw [hdr] at hr
        cases hr
      | cons l t =>
        rw [hdr] at hr
        obtain ⟨⟨type, name⟩, -, hr⟩ := bind_ok hr
        dsimp only at hr
        split_ifs at hr
        · obtain ⟨⟨atr, ptr', last⟩, hleaf, rfl⟩ := map_ok hr
          have hchildren : atr.children = [] := attachLeaf_children hleaf
          exact ⟨built_leaf hchildren, fun _ => hchildren⟩
        · obtain ⟨⟨type, b2⟩, -, hr⟩ := bind_ok hr
          cases b2 with
          | none => cases hr
          | some b2 =>
            obtain ⟨⟨children, next', rest⟩, hloop, hr⟩ := bind_ok hr
            obtain ⟨hlinked, hclimb, hends⟩ := ih.2 _ _ _ _ _ _ _ _ hloop
            dsimp only at hr
            split at hr
            · cases hr
            · rename_i hrest
              cases hr
              have hne : rest ≠ [] := by
                rintro rfl
                cases hrest
              exact ⟨⟨linked_iff.mpr hlinked, climbable_iff.mpr hclimb, (hends rfl hne).2⟩,
                fun hlast => absurd hlast Bool.false_ne_true⟩
    · intro b stops addr n next ptr last r hr
      rw [attachChildren] at hr
      split_ifs at hr with hstop
      · cases hr
        refine ⟨trivial, trivial, ?_⟩
        rintro rfl hne
        refine ⟨fun _ => ?_, fun c hc => absurd hc (by simp)⟩
        simpa [hne] using hstop
      · obtain ⟨⟨atr, next', ptr', last'⟩, hatr, hr⟩ := bind_ok hr
        obtain ⟨⟨ats, next'', ptr''⟩, hloop, rfl⟩ := map_ok hr
        obtain ⟨hbuilt, hlast⟩ := ih.1 _ _ _ _ hatr
        obtain ⟨hlinked, hclimb, hends⟩ := ih.2 _ _ _ _ _ _ _ _ hloop
        have hlinks : LinkedInside atr.addr atr.children := linked_iff.mp hbuilt.linked
        have hclimbs : ClimbableInside atr.children := climbable_iff.mp hbuilt.climbable
        refine ⟨⟨rfl, linked_iff.mpr hlinks, hlinked⟩,
          ⟨fun _ => hbuilt.endsInLeaf, climbable_iff.mpr hclimbs, hclimb⟩, ?_⟩
        intro hstops hne
        obtain ⟨hnil, hleaf⟩ := hends hstops hne
        refine ⟨fun hnil => absurd hnil (List.cons_ne_nil _ _), ?_⟩
        cases ats with
        | nil =>
          intro c hc
          cases hc
          exact hlast (hnil rfl)
        | cons a as =>
          intro c hc
          exact hleaf c (by simpa using hc)

/-- The walk over the attachments of a mail climbs out of every tree with one behind it. -/
theorem attachBuild_climbable {α : Type} {m : Mail α} {root : Attach}
    (h : attachBuild m = .ok root) :
    Climbable root ∧ Linked root ∧ root.parent = none ∧ (addrs root).Nodup := by
  unfold attachBuild at h
  split at h
  · cases h
  · obtain ⟨⟨type, b⟩, -, h⟩ := bind_ok h
    cases b with
    | none => cases h
    | some b =>
      dsimp only at h
      split_ifs at h
      unfold attachRoot at h
      split_ifs at h
      obtain ⟨⟨children, next, rest⟩, hloop, h⟩ := bind_ok h
      obtain ⟨hlinked, hclimb, -⟩ := (built _ _).2 _ _ _ _ _ _ _ _ hloop
      have hnumbered := (numbered _ _).2 _ _ _ _ _ _ _ _ hloop
      dsimp only at h
      split_ifs at h
      cases h
      refine ⟨climbable_iff.mpr hclimb, linked_iff.mpr hlinked, rfl, ?_⟩
      rw [addrs_eq]
      exact (Numbered.cons hnumbered).nodup

/-- The attachments of a mail in memory. -/
def Layout.ofBuild {α : Type} {m : Mail α} {root : Attach} (h : attachBuild m = .ok root) :
    Layout root :=
  .ofLinked (attachBuild_climbable h).2.1 (attachBuild_climbable h).2.2.1
    (attachBuild_climbable h).2.2.2

/-! ## How deep they are -/

/-- Every second call goes one level down. -/
theorem depth_lt (size fuel : ℕ) :
    (∀ b next ptr r, attachGet size fuel b next ptr = .ok r →
      ∀ d, ∀ p ∈ preorder d r.1, 2 * p.2 < 2 * d + fuel) ∧
    (∀ b stops addr n next ptr last r,
      attachChildren size fuel b stops addr n next ptr last = .ok r →
      ∀ d, ∀ p ∈ preorderInside d r.1, 2 * p.2 + 1 < 2 * d + fuel) := by
  induction fuel with
  | zero =>
    constructor
    · intro b next ptr r hr
      rw [attachGet] at hr
      cases hr
    · intro b stops addr n next ptr last r hr
      rw [attachChildren] at hr
      cases hr
  | succ fuel ih =>
    constructor
    · intro b next ptr r hr d p hp
      rw [attachGet] at hr
      cases hdr : ptr.dropWhile fun l => !isContentType l with
      | nil =>
        rw [hdr] at hr
        cases hr
      | cons l t =>
        rw [hdr] at hr
        obtain ⟨⟨type, name⟩, -, hr⟩ := bind_ok hr
        dsimp only at hr
        split_ifs at hr
        · -- a leaf
          obtain ⟨⟨atr, ptr', last⟩, hleaf, rfl⟩ := map_ok hr
          rw [preorder_eq, attachLeaf_children hleaf, preorderInside] at hp
          rw [List.mem_singleton.mp hp]
          omega
        · obtain ⟨⟨type, b2⟩, -, hr⟩ := bind_ok hr
          cases b2 with
          | none => cases hr
          | some b2 =>
            obtain ⟨⟨children, next', rest⟩, hloop, hr⟩ := bind_ok hr
            dsimp only at hr
            split at hr
            · cases hr
            · cases hr
              rw [preorder_eq] at hp
              rcases List.mem_cons.mp hp with rfl | hp
              · show 2 * d < 2 * d + (fuel + 1)
                omega
              · -- the parts of a multipart are one level down
                have hlt := ih.2 _ _ _ _ _ _ _ _ hloop (d + 1) p hp
                omega
    · intro b stops addr n next ptr last r hr d p hp
      rw [attachChildren] at hr
      split_ifs at hr with hstop
      · cases hr
        rw [preorderInside] at hp
        cases hp
      · obtain ⟨⟨atr, next', ptr', last'⟩, hatr, hr⟩ := bind_ok hr
        obtain ⟨⟨ats, next'', ptr''⟩, hloop, rfl⟩ := map_ok hr
        rw [preorderInside] at hp
        have hatr' := ih.1 _ _ _ _ hatr d
        rw [preorder_eq, List.forall_mem_cons] at hatr'
        rcases List.mem_append.mp hp with hp | hp
        · -- the links of a node leave it at its depth
          rw [preorder_eq] at hp
          rcases List.mem_cons.mp hp with rfl | hp
          · show 2 * d + 1 < 2 * d + (fuel + 1)
            have hlt := hatr'.1
            omega
          · have hlt := hatr'.2 p hp
            omega
        · have hlt := ih.2 _ _ _ _ _ _ _ _ hloop d p hp
          omega

/-- A mail has a line at least for every level of its attachments. -/
theorem attachBuild_fits {α : Type} {m : Mail α} {root : Attach} (hsize : m.size < 2 ^ 32)
    (h : attachBuild m = .ok root) : Fits root := by
  unfold attachBuild at h
  split at h
  · cases h
  · obtain ⟨⟨type, b⟩, -, h⟩ := bind_ok h
    cases b with
    | none => cases h
    | some b =>
      dsimp only at h
      split_ifs at h
      unfold attachRoot at h
      split_ifs at h
      obtain ⟨⟨children, next, rest⟩, hloop, h⟩ := bind_ok h
      have hdepth := (depth_lt _ _).2 _ _ _ _ _ _ _ _ hloop 1
      have hlines : ((Lib.Lines.lines m.data).dropWhile fun l => !isOpen b l).length ≤ m.size :=
        (List.dropWhile_sublist _).length_le.trans (Lib.Lines.length_lines_le m.data)
      dsimp only at h
      split_ifs at h
      cases h
      intro p hp
      rw [preorder_eq] at hp
      rcases List.mem_cons.mp hp with rfl | hp
      · show 0 < 2 ^ 32
        omega
      · have hlt := hdepth p hp
        omega

/-! ## Every tree -/

/-- The walk over a tree is over every node of it, and the conditions consider every node, exactly
if each node with a sibling behind it ends in a leaf and the depths fit into the counter. -/
theorem everyNode_iff {root : Attach} (t : Layout root) :
    (VisitsEvery t ∧ ∀ fnmatch replacestr, ConsidersEvery fnmatch replacestr t) ↔
      Climbable root ∧ Fits root := by
  constructor
  · rintro ⟨hvisits, -⟩
    exact (visitsEvery_iff t).mp hvisits
  · intro h
    exact ⟨(visitsEvery_iff t).mpr h, fun fnmatch replacestr => considersEvery _ _ t h.1⟩

/-- A multipart in a multipart: `inner` ends in a multipart, and a last part is behind it. -/
def nested : Attach where
  addr := 0
  type := multipart
  children :=
    [{ addr := 1, parent := some 0, type := multipart, children :=
        [{ addr := 2, parent := some 1, type := multipart, children :=
            [{ addr := 3, parent := some 2, type := ['a'] }] }] },
     { addr := 4, parent := some 0, idx := 1, type := ['b'] }]

/-- `nested` in memory. -/
def nestedLayout : Layout nested :=
  .ofLinked (by simp [nested, Linked, LinkedInside]) rfl (by decide)

/-- The walk over `nested` ends before its last part. -/
example : visits nestedLayout.heap 4 (some 0) (some 0) =
    some [(0, some 0), (1, some 1), (2, some 2), (3, some 3)] := by
  decide

/-- The walk over the attachments of a mail sees each of them once, parents first and with its
depth, and the conditions consider each of them, wherever they are in memory. No mail is larger than
`MAXMAILSIZE`, which is `2 ^ 30`. -/
theorem attachments_visited {α : Type} {m : Mail α} {root : Attach} (hsize : m.size < 2 ^ 32)
    (h : attachBuild m = .ok root) :
    Nonempty (Layout root) ∧ ∀ t : Layout root,
      VisitsEvery t ∧ ∀ fnmatch replacestr, ConsidersEvery fnmatch replacestr t :=
  ⟨⟨.ofBuild h⟩, fun t =>
    (everyNode_iff t).mpr ⟨(attachBuild_climbable h).1, attachBuild_fits hsize h⟩⟩

/-- A mail with a multipart of one leaf, text behind that, and another leaf. -/
def twoLevels : Mail Unit :=
  let root : Part := .multipart multipart ['a']
    [.multipart multipart ['b'] [.leaf textPlain none [['h', 'i']]] [['x']],
      .leaf textPlain none [['h', 'o']]] []
  ({ data := (root.header :: root.content).flatten } : Mail Unit).withBody

/-- Its attachments. -/
def twoLevelsTree : Attach where
  addr := 0
  type := multipart
  children :=
    [{ addr := 1, parent := some 0, data := 40, type := multipart, children :=
        [{ addr := 2, parent := some 1, data := 84, size := 33, body := 113, type := textPlain }] },
     { addr := 3, parent := some 0, idx := 1, data := 123, size := 35, body := 154,
       type := textPlain }]

set_option maxRecDepth 4000 in
theorem attachBuild_twoLevels : attachBuild twoLevels = .ok twoLevelsTree := rfl

theorem attachments_visited_twoLevels :
    Nonempty (Layout twoLevelsTree) ∧ ∀ t : Layout twoLevelsTree,
      VisitsEvery t ∧ ∀ fnmatch replacestr, ConsidersEvery fnmatch replacestr t :=
  attachments_visited (m := twoLevels) (by decide +kernel) attachBuild_twoLevels

end Fdm.Attach
