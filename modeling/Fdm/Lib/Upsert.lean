import Mathlib.Data.List.Forall2
import Mathlib.Data.List.Induction
import Mathlib.Data.List.Nodup
import Mathlib.Data.List.Count

/-!
# Filling a table

A table is a list of rows, each with a key. An entry is put into the first row with the key
it names, or appended as a new row when there is none. `upsertAll` does so for a list of
entries, one after the other.

* `upsertAll_eq`: the rows that were there are filled (`placed`), the others appended;
* `upsertAll_nil_iff`: entries are appended as they are when they name different keys;
* `right_placed_iff`: when each row has what the entries say about its key.
-/

namespace Lib.Upsert

/-- How rows and entries go together. -/
structure Table (α ε κ : Type) where
  key : α → κ
  name : ε → κ
  /-- The row with what the entry says. -/
  put : ε → α → α
  /-- The row that is appended for an entry. -/
  new : ε → α
  key_put : ∀ e a, key (put e a) = key a
  key_new : ∀ e, key (new e) = name e
  put_put : ∀ e e' a, put e (put e' a) = put e a

namespace Table

variable {α ε κ : Type} [DecidableEq κ] (T : Table α ε κ)

/-- Put an entry into the first row with its key, or append it. -/
def upsert (e : ε) : List α → List α
  | [] => [T.new e]
  | a :: t => if T.key a = T.name e then T.put e a :: t else a :: upsert e t

/-- Put in entries one after the other. -/
def upsertAll (es : List ε) (t : List α) : List α := es.foldl (fun t e => T.upsert e t) t

/-- The entries that name a key, and those that do not. -/
def naming (k : κ) (es : List ε) : List ε := es.filter fun e => T.name e = k

def others (k : κ) (es : List ε) : List ε := es.filter fun e => T.name e ≠ k

/-- The rows that are there, filled. -/
def placed : List ε → List α → List α
  | _, [] => []
  | es, a :: t =>
    (T.naming (T.key a) es).foldl (fun a e => T.put e a) a :: placed (T.others (T.key a) es) t

variable {T} {e : ε} {es : List ε} {a : α} {t : List α} {k : κ}

theorem mem_naming : e ∈ T.naming k es ↔ e ∈ es ∧ T.name e = k := by
  rw [naming, List.mem_filter, decide_eq_true_eq]

theorem mem_others : e ∈ T.others k es ↔ e ∈ es ∧ T.name e ≠ k := by
  rw [others, List.mem_filter, decide_eq_true_eq]

theorem length_placed : (T.placed es t).length = t.length := by
  induction t generalizing es with
  | nil => rfl
  | cons a t ih => rw [placed, List.length_cons, List.length_cons, ih]

/-! ## The rows that are filled, and those that are appended -/

theorem upsertAll_cons : T.upsertAll es (a :: t)
    = (T.naming (T.key a) es).foldl (fun a e => T.put e a) a ::
        T.upsertAll (T.others (T.key a) es) t := by
  induction es generalizing a t with
  | nil => rfl
  | cons e es ih =>
    have hstep : T.upsertAll (e :: es) (a :: t) = T.upsertAll es (T.upsert e (a :: t)) := rfl
    rw [hstep, upsert]
    by_cases hkey : T.key a = T.name e
    · have hnaming : T.naming (T.key a) (e :: es) = e :: T.naming (T.key a) es := by
        rw [naming, List.filter_cons_of_pos (by simp [hkey]), naming]
      have hothers : T.others (T.key a) (e :: es) = T.others (T.key a) es := by
        rw [others, List.filter_cons_of_neg (by simp [hkey]), others]
      rw [if_pos hkey, ih, T.key_put, hnaming, hothers, List.foldl_cons]
    · have hnaming : T.naming (T.key a) (e :: es) = T.naming (T.key a) es := by
        rw [naming, List.filter_cons_of_neg (by simpa using Ne.symm hkey), naming]
      have hothers : T.others (T.key a) (e :: es) = e :: T.others (T.key a) es := by
        rw [others, List.filter_cons_of_pos (by simpa using Ne.symm hkey), others]
      rw [if_neg hkey, ih, hnaming, hothers]
      rfl

/-- The rows that were there are filled, and the entries that name none of them appended. -/
theorem upsertAll_eq [BEq κ] [LawfulBEq κ] : T.upsertAll es t
    = T.placed es t ++ T.upsertAll (es.filter fun e => T.name e ∉ t.map T.key) [] := by
  induction t generalizing es with
  | nil => simp [placed]
  | cons a t ih =>
    have hfilter : (T.others (T.key a) es).filter (fun e => T.name e ∉ t.map T.key)
        = es.filter fun e => T.name e ∉ (a :: t).map T.key := by
      rw [others, List.filter_filter]
      apply List.filter_congr
      intro e _
      simp only [List.map_cons, List.mem_cons, not_or, ne_eq, Bool.decide_and]
      exact Bool.and_comm _ _
    rw [upsertAll_cons, placed, ih, hfilter, List.cons_append]

theorem mem_keys_upsert {k : κ} (h : k ∈ (T.upsert e t).map T.key) :
    k = T.name e ∨ k ∈ t.map T.key := by
  induction t with
  | nil =>
    rw [upsert, List.map_singleton, List.mem_singleton, T.key_new] at h
    exact Or.inl h
  | cons a t ih =>
    rw [upsert] at h
    by_cases hkey : T.key a = T.name e
    · rw [if_pos hkey, List.map_cons, T.key_put] at h
      exact Or.inr h
    · rw [if_neg hkey, List.map_cons, List.mem_cons] at h
      rcases h with h | h
      · exact Or.inr (h ▸ List.mem_cons_self)
      · exact (ih h).imp id (List.mem_cons_of_mem _)

theorem nodup_upsert (h : (t.map T.key).Nodup) : ((T.upsert e t).map T.key).Nodup := by
  induction t with
  | nil => exact List.nodup_singleton _
  | cons a t ih =>
    rw [List.map_cons, List.nodup_cons] at h
    rw [upsert]
    by_cases hkey : T.key a = T.name e
    · rw [if_pos hkey, List.map_cons, T.key_put]
      exact List.nodup_cons.mpr h
    · rw [if_neg hkey, List.map_cons, List.nodup_cons]
      refine ⟨fun hmem => ?_, ih h.2⟩
      rcases mem_keys_upsert hmem with heq | hmem
      · exact hkey heq
      · exact h.1 hmem

/-- An entry that names no row is appended. -/
theorem upsert_of_not_mem (h : T.name e ∉ t.map T.key) : T.upsert e t = t ++ [T.new e] := by
  induction t with
  | nil => rfl
  | cons a t ih =>
    rw [List.map_cons, List.mem_cons, not_or] at h
    rw [upsert, if_neg (Ne.symm h.1), ih h.2, List.cons_append]

theorem nodup_upsertAll (h : (t.map T.key).Nodup) : ((T.upsertAll es t).map T.key).Nodup := by
  induction es generalizing t with
  | nil => exact h
  | cons e es ih => exact ih (nodup_upsert h)

theorem upsertAll_append_new (h : (es.map T.name).Nodup)
    (hnew : ∀ e ∈ es, T.name e ∉ t.map T.key) : T.upsertAll es t = t ++ es.map T.new := by
  induction es generalizing t with
  | nil => exact (List.append_nil t).symm
  | cons e es ih =>
    have hstep : T.upsertAll (e :: es) t = T.upsertAll es (T.upsert e t) := rfl
    rw [List.map_cons, List.nodup_cons] at h
    rw [hstep, upsert_of_not_mem (hnew e List.mem_cons_self), ih h.2, List.append_assoc]
    · rfl
    · intro x hx hmem
      rw [List.map_append, List.mem_append, List.map_singleton, List.mem_singleton,
        T.key_new] at hmem
      rcases hmem with hmem | heq
      · exact hnew x (List.mem_cons_of_mem e hx) hmem
      · exact h.1 (heq ▸ List.mem_map_of_mem hx)

/-- Entries are appended as they are exactly when they name different keys. -/
theorem upsertAll_nil_iff : T.upsertAll es [] = es.map T.new ↔ (es.map T.name).Nodup := by
  constructor
  · intro h
    have hnodup : ((T.upsertAll es []).map T.key).Nodup := nodup_upsertAll List.nodup_nil
    have hkeys : (es.map T.new).map T.key = es.map T.name := by
      rw [List.map_map]
      exact List.map_congr_left fun e _ => T.key_new e
    rwa [h, hkeys] at hnodup
  · intro h
    exact upsertAll_append_new h (by simp)

/-! ## What the rows hold -/

/-- The row that was `a` has what the entries say about its key, and nothing when they say
nothing. -/
def Right (T : Table α ε κ) (es : List ε) (a b : α) : Prop :=
  (∀ e ∈ es, T.name e = T.key a → b = T.put e a) ∧ ((∀ e ∈ es, T.name e ≠ T.key a) → b = a)

omit [DecidableEq κ] in
/-- The last entry counts. -/
theorem foldl_put (hall : ∀ e' ∈ es, T.put e' a = T.put e a) (hne : es ≠ []) :
    es.foldl (fun a e => T.put e a) a = T.put e a := by
  induction es using List.reverseRecOn with
  | nil => exact absurd rfl hne
  | append_singleton es x ih =>
    rw [List.foldl_append, List.foldl_cons, List.foldl_nil]
    by_cases hes : es = []
    · rw [hes]
      exact hall x (by simp)
    · rw [ih (fun y hy => hall y (List.mem_append_left _ hy)) hes, T.put_put]
      exact hall x (by simp)

/-- A row whose key no entry names stays as it is. -/
theorem placed_untouched (h : ∀ e ∈ es, T.name e ≠ k) :
    List.Forall₂ (fun a b => T.key a = k → b = a) t (T.placed es t) := by
  induction t generalizing es with
  | nil => exact .nil
  | cons a t ih =>
    refine .cons (fun hkey => ?_) (ih fun e he => h e (mem_others.mp he).1)
    have hnil : T.naming (T.key a) es = [] := by
      rw [List.eq_nil_iff_forall_not_mem]
      intro e he
      exact h e (mem_naming.mp he).1 ((mem_naming.mp he).2.trans hkey)
    rw [hnil]
    rfl

/-- An entry shows in one row only. -/
theorem count_le_one [BEq κ] [LawfulBEq κ] (he : e ∈ es)
    (hfresh : ∀ a ∈ t, T.key a = T.name e → T.put e a ≠ a)
    (h : List.Forall₂ (fun a b => T.key a = T.name e → b = T.put e a) t (T.placed es t)) :
    (t.map T.key).count (T.name e) ≤ 1 := by
  induction t generalizing es with
  | nil => simp
  | cons a t ih =>
    rw [placed, List.forall₂_cons] at h
    have hfresh' : ∀ x ∈ t, T.key x = T.name e → T.put e x ≠ x :=
      fun x hx => hfresh x (List.mem_cons_of_mem a hx)
    by_cases hkey : T.key a = T.name e
    · -- the first row took all entries for this key
      have hrest : T.name e ∉ t.map T.key := by
        intro hmem
        obtain ⟨x, hx, hxkey⟩ := List.mem_map.mp hmem
        have hno : ∀ y ∈ T.others (T.key a) es, T.name y ≠ T.name e := by
          intro y hy
          rw [← hkey]
          exact (mem_others.mp hy).2
        have hsame := placed_untouched (t := t) hno
        rw [List.forall₂_iff_get] at hsame
        obtain ⟨hlen, hsame⟩ := hsame
        obtain ⟨i, hi, rfl⟩ := List.mem_iff_getElem.mp hx
        have hi' : i < (T.placed (T.others (T.key a) es) t).length := hlen ▸ hi
        have hput := ((List.forall₂_iff_get.mp h.2).2 i hi hi') hxkey
        have hrow := hsame i hi hi' hxkey
        exact hfresh' _ hx hxkey (hput.symm.trans hrow)
      rw [List.map_cons, List.count_cons, List.count_eq_zero.mpr hrest]
      split_ifs
      · omega
      · omega
    · rw [List.map_cons, List.count_cons_of_ne hkey]
      exact ih (mem_others.mpr ⟨he, Ne.symm hkey⟩) hfresh' h.2

/-- Each row has what the entries say about its key exactly when no two rows have a key that
an entry names, and no two entries for a row differ. -/
theorem right_placed_iff [BEq κ] [LawfulBEq κ]
    (hfresh : ∀ a ∈ t, ∀ e ∈ es, T.key a = T.name e → T.put e a ≠ a) :
    List.Forall₂ (T.Right es) t (T.placed es t) ↔
      (∀ e ∈ es, (t.map T.key).count (T.name e) ≤ 1) ∧
        ∀ a ∈ t, ∀ e ∈ es, ∀ e' ∈ es, T.name e = T.key a → T.name e' = T.key a →
          T.put e a = T.put e' a := by
  constructor
  · intro h
    refine ⟨fun e he => ?_, fun a ha e he e' he' hname hname' => ?_⟩
    · refine count_le_one he (fun a ha => hfresh a ha e he) (h.imp fun a b hab hkey => ?_)
      exact hab.1 e he hkey.symm
    · obtain ⟨i, hi, rfl⟩ := List.mem_iff_getElem.mp ha
      obtain ⟨hlen, hget⟩ := List.forall₂_iff_get.mp h
      have hright := hget i hi (hlen ▸ hi)
      exact (hright.1 e he hname).symm.trans (hright.1 e' he' hname')
  · rintro ⟨hcount, hsame⟩
    induction t generalizing es with
    | nil => exact .nil
    | cons a t ih =>
      refine .cons ⟨fun e he hname => ?_, fun hnone => ?_⟩ ?_
      · refine foldl_put (fun e' he' => ?_) ?_
        · obtain ⟨hmem, hname'⟩ := mem_naming.mp he'
          exact hsame a List.mem_cons_self e' hmem e he hname' hname
        · exact List.ne_nil_of_mem (mem_naming.mpr ⟨he, hname⟩)
      · have hnil : T.naming (T.key a) es = [] := by
          rw [List.eq_nil_iff_forall_not_mem]
          intro e he
          exact hnone e (mem_naming.mp he).1 (mem_naming.mp he).2
        rw [hnil]
        rfl
      · have hcount' : ∀ e ∈ es, (t.map T.key).count (T.name e) ≤ 1 := fun e he =>
          Nat.le_trans (by rw [List.map_cons]; exact List.count_le_count_cons) (hcount e he)
        have hrest : List.Forall₂ (T.Right (T.others (T.key a) es)) t
            (T.placed (T.others (T.key a) es) t) :=
          ih (fun x hx e he => hfresh x (List.mem_cons_of_mem a hx) e (mem_others.mp he).1)
            (fun e he => hcount' e (mem_others.mp he).1)
            fun x hx e he e' he' => hsame x (List.mem_cons_of_mem a hx) e (mem_others.mp he).1 e'
              (mem_others.mp he').1
        have hmem : List.Forall₂ (fun x b => x ∈ t ∧ T.Right (T.others (T.key a) es) x b) t
            (T.placed (T.others (T.key a) es) t) :=
          (List.forall₂_and_left _ _).mpr ⟨fun _ hx => hx, hrest⟩
        refine hmem.imp fun x b hxb => ⟨fun e he hname => ?_, fun hnone => ?_⟩
        · by_cases hkey : T.name e = T.key a
          · -- two rows would have this key
            exfalso
            have htwo : 0 < (t.map T.key).count (T.name e) := by
              rw [List.count_pos_iff, hname]
              exact List.mem_map_of_mem hxb.1
            have hle := hcount e he
            rw [List.map_cons, hkey, List.count_cons_self] at hle
            rw [hkey] at htwo
            omega
          · exact hxb.2.1 e (mem_others.mpr ⟨he, hkey⟩) hname
        · exact hxb.2.2 fun e he => hnone e (mem_others.mp he).1

end Table

end Lib.Upsert
