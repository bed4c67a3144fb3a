import Mathlib.Data.List.Infix
import Mathlib.Tactic.SplitIfs

/-!
# Items cut off a growing input

Input arrives in pieces and a reader cuts items off its front. A `Cutter` is such a reader:
what it cuts does not change when more input follows.

* `Cutter.items_append`: cutting whenever input arrives finds what cutting at the end finds;
* `batches` are the items that each piece of input completes;
* `firstAt` finds a terminator, and `terminated` is the reader of terminated pieces that
  looks no further than a limit;
* `items_joined` and `eq_joined`: the pieces that `terminated` finds, put together with their
  terminators, are the input.
-/

namespace Lib.Intake

variable {β ι : Type*}

/-- A reader that cuts an item off the front of the input, or wants more of it. -/
structure Cutter (β ι : Type*) where
  cut : List β → Option (ι × List β)
  shorter : ∀ {s x r}, cut s = some (x, r) → r.length < s.length
  cut_append : ∀ {s x r}, cut s = some (x, r) → ∀ t, cut (s ++ t) = some (x, r ++ t)

namespace Cutter

variable (k : Cutter β ι)

/-- At most `n` items, and the input behind them. -/
def upto : ℕ → List β → List ι × List β
  | 0, s => ([], s)
  | n + 1, s =>
    match k.cut s with
    | none => ([], s)
    | some (x, r) => (x :: (upto n r).1, (upto n r).2)

/-- All items, and the input behind them. -/
def items (s : List β) : List ι × List β := k.upto s.length s

variable {k} {s r : List β} {x : ι}

/-- Nothing can be cut off. -/
theorem upto_none (h : k.cut s = none) (n : ℕ) : k.upto n s = ([], s) := by
  cases n with
  | zero => rfl
  | succ n => rw [upto, h]

/-- The bound does not matter once it is the length of the input. -/
theorem upto_congr {n m : ℕ} (hn : s.length ≤ n) (hm : s.length ≤ m) :
    k.upto n s = k.upto m s := by
  induction n generalizing m s with
  | zero =>
    cases hcut : k.cut s with
    | none => rw [upto_none hcut, upto_none hcut]
    | some p =>
      have hlt := k.shorter hcut
      omega
  | succ n ih =>
    cases hcut : k.cut s with
    | none => rw [upto_none hcut, upto_none hcut]
    | some p =>
      have hlt := k.shorter hcut
      cases m with
      | zero => omega
      | succ m =>
        have hrest : k.upto n p.2 = k.upto m p.2 := ih (by omega) (by omega)
        rw [upto, upto, hcut]
        simp only [hrest]

theorem upto_eq_items {n : ℕ} (hn : s.length ≤ n) : k.upto n s = k.items s :=
  upto_congr hn (Nat.le_refl _)

theorem items_none (h : k.cut s = none) : k.items s = ([], s) := upto_none h _

/-- One piece, and then those of the rest. -/
theorem items_some (h : k.cut s = some (x, r)) :
    k.items s = (x :: (k.items r).1, (k.items r).2) := by
  have hlt := k.shorter h
  rw [← upto_eq_items (show s.length ≤ r.length + 1 + (s.length - r.length - 1) by omega),
    show r.length + 1 + (s.length - r.length - 1) = s.length - 1 + 1 by omega, upto, h]
  simp only [upto_eq_items (show r.length ≤ s.length - 1 by omega)]

/-- Nothing can be cut off what is left. -/
theorem cut_items (s : List β) : k.cut (k.items s).2 = none := by
  induction hn : s.length using Nat.strong_induction_on generalizing s with
  | _ n ih =>
    cases hcut : k.cut s with
    | none => rw [items_none hcut, hcut]
    | some p =>
      have hlt := k.shorter hcut
      rw [items_some hcut]
      exact ih p.2.length (by omega) p.2 rfl

/-- Cutting before more input arrives changes nothing. -/
theorem items_append (s t : List β) :
    k.items (s ++ t) =
      ((k.items s).1 ++ (k.items ((k.items s).2 ++ t)).1, (k.items ((k.items s).2 ++ t)).2) := by
  induction hn : s.length using Nat.strong_induction_on generalizing s with
  | _ n ih =>
    cases hcut : k.cut s with
    | none => rw [items_none hcut, List.nil_append]
    | some p =>
      have hlt := k.shorter hcut
      rw [items_some hcut, items_some (k.cut_append hcut t), ih p.2.length (by omega) p.2 rfl,
        List.cons_append]

/-- The items that each chunk of input completes, when `s` is left of what came before. -/
def batches (k : Cutter β ι) : List β → List (List β) → List (List ι)
  | _, [] => []
  | s, c :: cs => (k.items (s ++ c)).1 :: k.batches (k.items (s ++ c)).2 cs

@[simp] theorem batches_nil (s : List β) : k.batches s [] = [] := rfl

/-- A chunk, and then the others. -/
theorem batches_cons (s c : List β) (cs : List (List β)) :
    k.batches s (c :: cs) = (k.items (s ++ c)).1 :: k.batches (k.items (s ++ c)).2 cs := rfl

/-- The batches make up the items of the whole input. -/
theorem flatten_batches (h : k.cut s = none) (cs : List (List β)) :
    (k.batches s cs).flatten = (k.items (s ++ cs.flatten)).1 := by
  induction cs generalizing s with
  | nil => simp [items_none h]
  | cons c cs ih =>
    rw [batches_cons, List.flatten_cons, ih (k.cut_items _), List.flatten_cons, ← List.append_assoc,
      k.items_append (s ++ c) cs.flatten]

end Cutter

/-! ## Terminated pieces -/

section Terminated

variable {e s t l : List β} {n : ℕ}

/-- A terminator whose first letter does not come back in it: an occurrence cannot overlap
another one. -/
def Plain (e : List β) : Prop := ∃ a b, e = a :: b ∧ a ∉ b

theorem Plain.ne_nil (h : Plain e) : e ≠ [] := by
  obtain ⟨a, b, rfl, -⟩ := h
  exact List.cons_ne_nil a b

/-- Pieces, each with its terminator, and what follows the last one. -/
def joined (e : List β) (ls : List (List β)) (p : List β) : List β :=
  (ls.map (· ++ e)).flatten ++ p

@[simp] theorem joined_nil (e p : List β) : joined e [] p = p := rfl

@[simp] theorem joined_cons (e l : List β) (ls : List (List β)) (p : List β) :
    joined e (l :: ls) p = l ++ e ++ joined e ls p := by
  simp [joined]

/-- What comes behind joins the last piece. -/
theorem joined_append (e : List β) (ls : List (List β)) (p t : List β) :
    joined e ls p ++ t = joined e ls (p ++ t) := by
  rw [joined, joined, List.append_assoc]

/-- Pieces in front of other pieces. -/
theorem joined_joined (e : List β) (ls ls' : List (List β)) (p : List β) :
    joined e ls (joined e ls' p) = joined e (ls ++ ls') p := by
  rw [joined, joined, joined, List.map_append, List.flatten_append, List.append_assoc]

theorem le_length_joined (e : List β) (ls : List (List β)) (p : List β) :
    p.length ≤ (joined e ls p).length := by
  rw [joined, List.length_append]
  omega

variable [DecidableEq β]

/-- The offset of the first occurrence of the terminator `e`. -/
def firstAt (e : List β) : List β → Option ℕ
  | [] => none
  | c :: s => if e <+: c :: s then some 0 else (firstAt e s).map (· + 1)

/-- The terminator is found where it first stands. -/
theorem firstAt_eq_some (h : firstAt e s = some n) :
    e <+: s.drop n ∧ ∀ m < n, ¬ e <+: s.drop m := by
  induction s generalizing n with
  | nil => cases h
  | cons c s ih =>
    rw [firstAt] at h
    split_ifs at h with hpre
    · obtain rfl : 0 = n := by simpa using h
      exact ⟨hpre, fun m hm => by omega⟩
    · obtain ⟨i, hi, rfl⟩ := Option.map_eq_some_iff.mp h
      refine ⟨(ih hi).1, fun m hm => ?_⟩
      cases m with
      | zero => exact hpre
      | succ m => exact (ih hi).2 m (by omega)

/-- It is found there if it stands nowhere before. -/
theorem firstAt_of (hs : e <+: s.drop n) (hne : e ≠ []) (hbefore : ∀ m < n, ¬ e <+: s.drop m) :
    firstAt e s = some n := by
  induction s generalizing n with
  | nil =>
    rw [List.drop_nil, List.prefix_nil] at hs
    exact absurd hs hne
  | cons c s ih =>
    rw [firstAt]
    cases n with
    | zero => exact if_pos hs
    | succ n =>
      have hhead : ¬ e <+: c :: s := hbefore 0 (by omega)
      rw [if_neg hhead, ih hs fun m hm => hbefore (m + 1) (by omega), Option.map_some]

/-- What comes behind does not change where it is found. -/
theorem firstAt_append (h : firstAt e s = some n) (hne : e ≠ []) (t : List β) :
    firstAt e (s ++ t) = some n := by
  have hspec := firstAt_eq_some h
  have hlen : n ≤ s.length := by
    by_contra hlt
    rw [List.drop_eq_nil_of_le (by omega), List.prefix_nil] at hspec
    exact hne hspec.1
  refine firstAt_of ?_ hne fun m hm hpre => ?_
  · rw [List.drop_append_of_le_length hlen]
    exact hspec.1.trans (List.prefix_append _ _)
  · -- an earlier occurrence ends in front of the end of the first one
    have hfit := hspec.1.length_le
    rw [List.length_drop] at hfit
    rw [List.drop_append_of_le_length (by omega)] at hpre
    refine hspec.2 m hm (List.prefix_of_prefix_length_le hpre (List.prefix_append _ _) ?_)
    rw [List.length_drop]
    omega

/-- Where none is found there is none. -/
theorem firstAt_none (h : firstAt e s = none) (hne : e ≠ []) : ¬ e <:+: s := by
  rintro ⟨u, v, rfl⟩
  induction u with
  | nil =>
    cases e with
    | nil => exact hne rfl
    | cons a e =>
      rw [List.nil_append, List.cons_append, firstAt,
        if_pos (by rw [← List.cons_append]; exact List.prefix_append _ _)] at h
      cases h
  | cons c u ih =>
    rw [List.cons_append, List.cons_append, firstAt] at h
    split_ifs at h
    exact ih (Option.map_eq_none_iff.mp h)

theorem firstAt_of_absent (h : ¬ e <:+: s) : firstAt e s = none := by
  cases hfirst : firstAt e s with
  | none => rfl
  | some n =>
    exact absurd ((firstAt_eq_some hfirst).1.isInfix.trans (List.drop_suffix n s).isInfix) h

/-- A piece without the terminator reaches up to the terminator behind it. -/
theorem firstAt_piece (he : Plain e) (hl : ¬ e <:+: l) (t : List β) :
    firstAt e (l ++ e ++ t) = some l.length := by
  refine firstAt_of ?_ he.ne_nil fun m hm hpre => ?_
  · rw [List.append_assoc, List.drop_left]
    exact List.prefix_append _ _
  · obtain ⟨a, b, rfl, hab⟩ := he
    rw [List.append_assoc, List.drop_append_of_le_length (by omega)] at hpre
    by_cases hfit : (a :: b).length ≤ (l.drop m).length
    · -- the occurrence lies in the piece
      have hin := List.prefix_of_prefix_length_le hpre (List.prefix_append _ _) hfit
      exact hl (hin.isInfix.trans (List.drop_suffix m l).isInfix)
    · -- the occurrence overlaps the terminator, whose first letter is then in `b`
      have hlong : l.drop m <+: a :: b :=
        List.prefix_of_prefix_length_le (List.prefix_append _ _) hpre (by omega)
      obtain ⟨u, hu⟩ := hlong
      rw [← hu, List.prefix_append_right_inj] at hpre
      have hlen : (l.drop m).length + u.length = (a :: b).length := by
        rw [← hu, List.length_append]
      cases u with
      | nil => simp at hlen; simp at hfit; omega
      | cons c u =>
        obtain ⟨v, hv⟩ := hpre
        have hca : c = a := by
          have hhead := congrArg List.head? hv
          simpa [hu] using hhead
        cases hd : l.drop m with
        | nil =>
          have := congrArg List.length hd
          simp at this
          omega
        | cons d w =>
          rw [hd, List.cons_append, List.cons.injEq] at hu
          exact hab (by rw [← hu.2, hca]; simp)

/-- The reader of pieces that end with the terminator, which looks at no more than `max`
letters. -/
def terminated (e : List β) (he : e ≠ []) (max : ℕ) : Cutter β (List β) where
  cut s := (firstAt e (s.take max)).map fun n => (s.take n, s.drop (n + e.length))
  shorter := by
    intro s x r h
    obtain ⟨n, hn, heq⟩ := Option.map_eq_some_iff.mp h
    obtain ⟨-, rfl⟩ := Prod.mk.injEq .. ▸ heq
    have hfit := (firstAt_eq_some hn).1.length_le
    have hpos := List.length_pos_iff.mpr he
    rw [List.length_drop, List.length_take] at hfit
    rw [List.length_drop]
    omega
  cut_append := by
    intro s x r h t
    obtain ⟨n, hn, heq⟩ := Option.map_eq_some_iff.mp h
    obtain ⟨rfl, rfl⟩ := Prod.mk.injEq .. ▸ heq
    have hfit := (firstAt_eq_some hn).1.length_le
    have hpos := List.length_pos_iff.mpr he
    rw [List.length_drop, List.length_take] at hfit
    rw [List.take_append, firstAt_append hn he, Option.map_some,
      List.take_append_of_le_length (by omega), List.drop_append_of_le_length (by omega)]

variable {max : ℕ} {ls : List (List β)} {p : List β}

/-- What is cut off is a piece without a terminator, and its terminator. -/
theorem cut_terminated_some {he : e ≠ []} {r : List β}
    (h : (terminated e he max).cut s = some (l, r)) :
    s = l ++ e ++ r ∧ ¬ e <:+: l ∧ l.length + e.length ≤ max := by
  obtain ⟨n, hn, heq⟩ := Option.map_eq_some_iff.mp h
  obtain ⟨rfl, rfl⟩ := Prod.mk.injEq .. ▸ heq
  obtain ⟨hpre, hbefore⟩ := firstAt_eq_some hn
  have hfit := hpre.length_le
  rw [List.length_drop, List.length_take] at hfit
  have hpos := List.length_pos_iff.mpr he
  have hpre' : e <+: s.drop n := by
    rw [List.drop_take] at hpre
    exact hpre.trans (List.take_prefix _ _)
  refine ⟨?_, ?_, ?_⟩
  · obtain ⟨v, hv⟩ := hpre'
    have hdrop : s.drop (n + e.length) = v := by
      rw [← List.drop_drop, ← hv, List.drop_left]
    rw [hdrop, List.append_assoc, hv, List.take_append_drop]
  · rintro ⟨u, v, huv⟩
    have hlen := congrArg List.length huv
    rw [List.length_append, List.length_append, List.length_take] at hlen
    refine hbefore u.length (by omega) ?_
    have hs : s.take max = u ++ e ++ (v ++ (s.take max).drop n) := by
      rw [← List.append_assoc, huv]
      conv_lhs => rw [← List.take_append_drop n (s.take max), List.take_take]
      rw [Nat.min_eq_left (by omega)]
    rw [hs, List.append_assoc, List.drop_left]
    exact List.prefix_append _ _
  · rw [List.length_take]
    omega

/-- Such a piece is cut off. -/
theorem cut_terminated_piece (he : Plain e) (hl : ¬ e <:+: l) (hmax : l.length + e.length ≤ max)
    (r : List β) : (terminated e he.ne_nil max).cut (l ++ e ++ r) = some (l, r) := by
  have htake : (l ++ e ++ r).take max = l ++ e ++ r.take (max - (l ++ e).length) := by
    rw [List.take_append, List.take_of_length_le (by rw [List.length_append]; omega)]
  show (firstAt e ((l ++ e ++ r).take max)).map _ = _
  rw [htake, firstAt_piece he hl, Option.map_some]
  simp only [List.append_assoc, List.take_left, Option.some.injEq, Prod.mk.injEq, true_and]
  rw [← List.append_assoc, ← List.length_append, List.drop_left]

/-- The pieces found are the input. -/
theorem eq_joined (he : e ≠ []) (max : ℕ) (s : List β) :
    s = joined e ((terminated e he max).items s).1 ((terminated e he max).items s).2 := by
  induction hn : s.length using Nat.strong_induction_on generalizing s with
  | _ n ih =>
    cases hcut : (terminated e he max).cut s with
    | none => rw [Cutter.items_none hcut, joined_nil]
    | some q =>
      have hlt := (terminated e he max).shorter hcut
      have hs := (cut_terminated_some hcut).1
      rw [Cutter.items_some hcut, joined_cons, ← ih q.2.length (by omega) q.2 rfl]
      exact hs

/-- No piece found has the terminator in it, and each fits. -/
theorem piece_of_mem (he : e ≠ []) (max : ℕ) (s : List β) :
    ∀ l ∈ ((terminated e he max).items s).1, ¬ e <:+: l ∧ l.length + e.length ≤ max := by
  induction hn : s.length using Nat.strong_induction_on generalizing s with
  | _ n ih =>
    cases hcut : (terminated e he max).cut s with
    | none => simp [Cutter.items_none hcut]
    | some q =>
      have hlt := (terminated e he max).shorter hcut
      have hpiece := (cut_terminated_some hcut).2
      intro l hl
      rw [Cutter.items_some hcut] at hl
      rcases List.mem_cons.mp hl with rfl | hl
      · exact hpiece
      · exact ih q.2.length (by omega) q.2 rfl l hl

/-- Pieces that fit are found, up to the first one that does not. -/
theorem items_joined (he : Plain e)
    (hls : ∀ l ∈ ls, ¬ e <:+: l ∧ l.length + e.length ≤ max) (p : List β) :
    (terminated e he.ne_nil max).items (joined e ls p)
      = (ls ++ ((terminated e he.ne_nil max).items p).1,
        ((terminated e he.ne_nil max).items p).2) := by
  induction ls with
  | nil => rfl
  | cons l ls ih =>
    have hl := hls l List.mem_cons_self
    have hcut := cut_terminated_piece he hl.1 hl.2 (joined e ls p)
    rw [joined_cons, Cutter.items_some hcut, ih fun x hx => hls x (List.mem_cons_of_mem l hx),
      List.cons_append]

/-- Where no more can be cut off, the next terminator is too far or not there. -/
theorem cut_terminated_none {he : e ≠ []} (h : (terminated e he max).cut s = none) :
    ¬ e <:+: s.take max :=
  firstAt_none (Option.map_eq_none_iff.mp h) he

/-- Without a terminator nothing is cut off. -/
theorem cut_terminated_of_absent {he : e ≠ []} (h : ¬ e <:+: s.take max) :
    (terminated e he max).cut s = none :=
  Option.map_eq_none_iff.mpr (firstAt_of_absent h)

/-- A piece that is too long with its terminator is not cut off. -/
theorem cut_terminated_long (he : Plain e) (hl : ¬ e <:+: l) (hmax : max < l.length + e.length)
    (r : List β) : (terminated e he.ne_nil max).cut (l ++ e ++ r) = none := by
  refine cut_terminated_of_absent fun hin => ?_
  cases hfirst : firstAt e ((l ++ e ++ r).take max) with
  | none => exact firstAt_none hfirst he.ne_nil hin
  | some n =>
    have hwhole := firstAt_append hfirst he.ne_nil ((l ++ e ++ r).drop max)
    rw [List.take_append_drop, firstAt_piece he hl, Option.some.injEq] at hwhole
    have hfit := (firstAt_eq_some hfirst).1.length_le
    have hpos := List.length_pos_iff.mpr he.ne_nil
    rw [List.length_drop, List.length_take] at hfit
    omega

/-- Once the limit is reached, more input does not help. -/
theorem cut_terminated_stuck {he : e ≠ []} (h : (terminated e he max).cut s = none)
    (hmax : max ≤ s.length) (t : List β) : (terminated e he max).cut (s ++ t) = none := by
  refine cut_terminated_of_absent ?_
  rw [List.take_append_of_le_length hmax]
  exact cut_terminated_none h

end Terminated

end Lib.Intake
