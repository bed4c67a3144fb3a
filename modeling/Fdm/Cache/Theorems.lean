import Fdm.Cache.Defs

/-!
# What a cache remembers

A key that has been added is there until it is removed, the cache is cleared, or it is as old as the
configuration says; and a process that has expired the cache never finds an older one. Other
processes may do anything meanwhile.
-/

namespace Fdm.Cache

open Lib.Runs Lib.Memory

variable {T : Type} {tdb : Tdb T} {expire : ℕ → ℕ} {s s' : Sys T}

/-! ## Records -/

/-- A time is written in a record of the right size. -/
theorem length_cacheitem (tim : ℕ) : (cacheitem tim).length = sizeofItem := by
  rw [cacheitem, List.length_append, length_bytesOf, List.length_replicate]
  rfl

/-- A time that fits its field is read back. -/
theorem itemTim_cacheitem {tim : ℕ} (h : tim < 2 ^ 64) : itemTim (cacheitem tim) = some tim := by
  have htake : (cacheitem tim).take 8 = bytesOf 8 tim := List.take_left' (length_bytesOf 8 tim)
  have hlt : tim < 256 ^ 8 := by omega
  rw [itemTim, if_pos (length_cacheitem tim), htake, valueOf_bytesOf hlt]

/-- A record that is found is one of the file. -/
theorem mem_records (htdb : tdb.Lawful) {t : T} {k : Key} {v : Data} (h : tdb.fetch t k = some v) :
    (k, v) ∈ records tdb t := by
  refine List.mem_filterMap.mpr ⟨k, ?_, by rw [h, Option.map_some]⟩
  rw [htdb.mem_keys, h]
  rfl

/-- What `db_add` has added is found, and the other records are as they were. -/
theorem fetch_dbAdd (htdb : tdb.Lawful) (now : ℕ) (k k' : Key) (t : T) :
    tdb.fetch (dbAdd tdb now k t) k' = if k' = k then some (cacheitem now) else tdb.fetch t k' :=
  htdb.fetch_store t k _ k'

/-- Whether or not it fails, the key is not there behind `db_remove`. -/
theorem fetch_dbRemove (htdb : tdb.Lawful) (k k' : Key) (t : T) :
    tdb.fetch (dbRemove tdb k t).2 k' = if k' = k then none else tdb.fetch t k' := by
  unfold dbRemove
  by_cases hk : (tdb.fetch t k).isSome = true
  · rw [if_pos hk]
    exact htdb.fetch_delete t k k'
  · rw [if_neg hk]
    split_ifs with hk'
    · rw [hk']
      simpa using hk
    · rfl

/-! ## A file -/

/-- A file in which the last record of a key counts. -/
def listTdb : Tdb (List (Key × Data)) where
  fetch t k := (t.find? fun x => x.1 = k).map Prod.snd
  store t k v := (k, v) :: t
  delete t k := t.filter fun x => x.1 ≠ k
  keys t := t.map Prod.fst

/-- A list of records behaves as TDB is said to. -/
theorem listTdb_lawful : listTdb.Lawful where
  fetch_store t k v k' := by
    by_cases hk : k = k'
    · simp [listTdb, hk]
    · simp [listTdb, hk, Ne.symm hk]
  fetch_delete t k k' := by
    split_ifs with hk
    · simp [listTdb, hk]
    · dsimp only [listTdb]
      rw [List.find?_filter]
      congr 2
      funext x
      by_cases hx : x.1 = k'
      · simp [hx, hk]
      · simp [hx]
  mem_keys t k := by simp [listTdb]

/-! ## Processes that expire the cache -/

/-- Every record is at most `age` seconds older than `n`, or one of some others. -/
def Young (tdb : Tdb T) (t : T) (n age : ℕ) (others : Key → Data → Prop) : Prop :=
  ∀ k v tim, tdb.fetch t k = some v → itemTim v = some tim → n ≤ tim + age ∨ others k v

/-- What a process knows about the file. -/
def Proc.Right (tdb : Tdb T) (s : Sys T) (age : ℕ) : Proc → Prop
  | expiring begun todo =>
    age ≠ 0 ∧ begun ≤ s.now ∧ Young tdb s.file begun age fun k v => (k, v) ∈ todo
  | expiringItem begun todo k' =>
    age ≠ 0 ∧ begun ≤ s.now ∧ Young tdb s.file begun age fun k v => (k, v) ∈ todo ∨ k = k'
  | opened (some n) => n ≤ s.now ∧ Young tdb s.file n age fun _ _ => False
  | removing (some n) _ => n ≤ s.now ∧ Young tdb s.file n age fun _ _ => False
  | _ => True

/-- Each record has a time that has been, and each process is right about the file. -/
structure Inv (tdb : Tdb T) (expire : ℕ → ℕ) (s : Sys T) : Prop where
  items : ∀ k v, tdb.fetch s.file k = some v → ∃ tim ≤ s.now, itemTim v = some tim
  right : ∀ p, (s.proc p).Right tdb s (expire p)

/-- Time goes on, and records are deleted or added. -/
structure Later (tdb : Tdb T) (s s' : Sys T) : Prop where
  now : s.now ≤ s'.now
  fetch : ∀ k v, tdb.fetch s'.file k = some v →
    tdb.fetch s.file k = some v ∨ itemTim v = some s.now

/-- Time goes on, and the file is the same. -/
theorem Later.of_file (hfile : s'.file = s.file) (hnow : s.now ≤ s'.now) : Later tdb s s' where
  now := hnow
  fetch _ _ hv := .inl (hfile ▸ hv)

/-- What is young stays so, as records only get younger. -/
theorem Young.later {n age : ℕ} {others : Key → Data → Prop} (h : Young tdb s.file n age others)
    (hlater : Later tdb s s') (hn : n ≤ s.now) : Young tdb s'.file n age others := by
  intro k v tim hv htim
  rcases hlater.fetch k v hv with hv | hnew
  · exact h k v tim hv htim
  · obtain rfl : s.now = tim := Option.some.inj (hnew.symm.trans htim)
    exact .inl (by omega)

/-- What a process has found out stays right. -/
theorem Proc.Right.later {age : ℕ} {x : Proc} (h : x.Right tdb s age) (hlater : Later tdb s s') :
    x.Right tdb s' age := by
  have hnow := hlater.now
  cases x with
  | expiring begun todo => exact ⟨h.1, by have := h.2.1; omega, h.2.2.later hlater h.2.1⟩
  | expiringItem begun todo k => exact ⟨h.1, by have := h.2.1; omega, h.2.2.later hlater h.2.1⟩
  | opened expired =>
    cases expired with
    | none => trivial
    | some n => exact ⟨by have := h.1; omega, h.2.later hlater h.1⟩
  | removing expired k =>
    cases expired with
    | none => trivial
    | some n => exact ⟨by have := h.1; omega, h.2.later hlater h.1⟩
  | _ => trivial

/-- A step of one process, of which the others know nothing. -/
theorem Inv.step_proc (h : Inv tdb expire s) (hlater : Later tdb s s') {p : ℕ} {x : Proc}
    (hproc : s'.proc = Function.update s.proc p x) (hright : x.Right tdb s' (expire p)) :
    Inv tdb expire s' where
  items k v hv := by
    have hnow := hlater.now
    rcases hlater.fetch k v hv with hv | hnew
    · obtain ⟨tim, hle, htim⟩ := h.items k v hv
      exact ⟨tim, by omega, htim⟩
    · exact ⟨s.now, hnow, hnew⟩
  right q := by
    rw [hproc]
    -- the other processes are right about a file that has only lost records or gained young ones
    by_cases hq : q = p
    · rw [hq, Function.update_self]
      exact hright
    · rw [Function.update_of_ne hq]
      exact (h.right q).later hlater

/-- One process goes on. -/
theorem Inv.set (h : Inv tdb expire s) {p : ℕ} {x : Proc} (hright : x.Right tdb s (expire p)) :
    Inv tdb expire (s.set p x) := by
  have hlater : Later tdb s (s.set p x) := .of_file rfl le_rfl
  exact h.step_proc hlater rfl (hright.later hlater)

/-! ## Steps -/

/-- A process opens the cache: nothing old has been visited yet. -/
theorem inv_openCache (htdb : tdb.Lawful) (h : Inv tdb expire s) (p : ℕ) :
    Inv tdb expire (openCache tdb (expire p) p s) := by
  unfold openCache
  split_ifs with hzero hage
  · exact h.set trivial
  · refine h.set ⟨le_rfl, ?_⟩
    intro k v tim _ _
    exact .inl (by omega)
  · refine h.set ⟨hzero, le_rfl, ?_⟩
    intro k v tim hv _
    exact .inr (mem_records htdb hv)

/-- A record that is visited is young, or is deleted next. -/
theorem inv_visit (h : Inv tdb expire s) {p : ℕ} {k : Key} {v : Data}
    (hv : tdb.fetch s.file k = some v) (hs : visit (expire p) p k v s = some s') :
    Inv tdb expire s' := by
  have hright := h.right p
  obtain ⟨tim, -, htim⟩ := h.items k v hv
  unfold visit at hs
  cases hproc : s.proc p with
  | expiring begun todo =>
    rw [hproc] at hs hright
    obtain ⟨hage, hbegun, hyoung⟩ := hright
    rw [htim] at hs
    obtain rfl := Option.some.inj hs
    refine h.set ?_
    split_ifs with hold
    · -- the record is off the list, and is the one that is to be deleted
      refine ⟨hage, hbegun, ?_⟩
      intro k' v' tim' hv' htim'
      rcases hyoung k' v' tim' hv' htim' with hle | hmem
      · exact .inl hle
      · by_cases hk : k' = k
        · exact .inr (.inr hk)
        · exact .inr (.inl (List.mem_filter.mpr ⟨hmem, by simpa using hk⟩))
    · refine ⟨hage, hbegun, ?_⟩
      intro k' v' tim' hv' htim'
      rcases hyoung k' v' tim' hv' htim' with hle | hmem
      · exact .inl hle
      · by_cases hk : k' = k
        · -- the record that is visited is not an old one
          subst hk
          obtain rfl : v = v' := Option.some.inj (hv.symm.trans hv')
          obtain rfl : tim = tim' := Option.some.inj (htim.symm.trans htim')
          exact .inl (by omega)
        · exact .inr (List.mem_filter.mpr ⟨hmem, by simpa using hk⟩)
  | clearing =>
    rw [hproc] at hs
    obtain rfl := Option.some.inj hs
    refine h.set ?_
    split_ifs
    · trivial
    · trivial
  | _ =>
    rw [hproc] at hs
    cases hs

/-- A record is deleted. -/
theorem later_dbRemove (htdb : tdb.Lawful) (k : Key) (s : Sys T) :
    Later tdb s { s with file := (dbRemove tdb k s.file).2 } where
  now := le_rfl
  fetch k' v hv := by
    rw [fetch_dbRemove htdb] at hv
    split_ifs at hv
    exact .inl hv

/-- The record that a process deletes is gone. -/
theorem inv_delete (htdb : tdb.Lawful) (h : Inv tdb expire s) {p : ℕ}
    (hs : delete tdb p s = some s') : Inv tdb expire s' := by
  have hright := h.right p
  unfold delete at hs
  cases hproc : s.proc p with
  | expiringItem begun todo k =>
    rw [hproc] at hs hright
    obtain rfl := Option.some.inj hs
    have hlater := later_dbRemove htdb k s
    refine h.step_proc ⟨hlater.now, hlater.fetch⟩ rfl ?_
    split_ifs
    · trivial
    · obtain ⟨hage, hbegun, hyoung⟩ := hright
      refine ⟨hage, hbegun, ?_⟩
      intro k' v' tim' hv' htim'
      change tdb.fetch (dbRemove tdb k s.file).2 k' = some v' at hv'
      rw [fetch_dbRemove htdb] at hv'
      split_ifs at hv' with hk
      -- what is left is young, or still on the list: the key that was left out is gone
      rcases hyoung k' v' tim' hv' htim' with hle | hmem | heq
      · exact .inl hle
      · exact .inr hmem
      · exact absurd heq hk
  | removing expired k =>
    rw [hproc] at hs hright
    obtain rfl := Option.some.inj hs
    have hlater := later_dbRemove htdb k s
    have hright' : (Proc.opened expired).Right tdb s (expire p) := by
      cases expired with
      | none => trivial
      | some n => exact hright
    exact h.step_proc ⟨hlater.now, hlater.fetch⟩ rfl (hright'.later ⟨hlater.now, hlater.fetch⟩)
  | clearingItem k =>
    rw [hproc] at hs
    obtain rfl := Option.some.inj hs
    have hlater := later_dbRemove htdb k s
    refine h.step_proc ⟨hlater.now, hlater.fetch⟩ rfl ?_
    split_ifs
    · trivial
    · trivial
  | _ =>
    rw [hproc] at hs
    cases hs

/-- A traversal that has come to its end has visited what was there. -/
theorem inv_finish (h : Inv tdb expire s) {p : ℕ} (hs : finish tdb p s = some s') :
    Inv tdb expire s' := by
  have hright := h.right p
  unfold finish at hs
  cases hproc : s.proc p with
  | expiring begun todo =>
    rw [hproc] at hs hright
    dsimp only at hs
    split_ifs at hs with hdone
    obtain rfl := Option.some.inj hs
    obtain ⟨-, hbegun, hyoung⟩ := hright
    refine h.set ⟨hbegun, ?_⟩
    intro k v tim hv htim
    -- what has not been visited is not there any more
    rcases hyoung k v tim hv htim with hle | hmem
    · exact .inl hle
    · exact absurd hv (hdone (k, v) hmem)
  | clearing =>
    rw [hproc] at hs
    obtain rfl := Option.some.inj hs
    exact h.set trivial
  | _ =>
    rw [hproc] at hs
    cases hs

/-- The time fits `time_t` and the field of a record. -/
def Sys.Timed (s : Sys T) : Prop := s.now < 2 ^ 64

instance (s : Sys T) : Decidable s.Timed := inferInstanceAs (Decidable (s.now < 2 ^ 64))

/-- A record that is added has the time of its addition. -/
theorem later_dbAdd (htdb : tdb.Lawful) (hnow : s.Timed) (k : Key) :
    Later tdb s { s with file := dbAdd tdb s.now k s.file } where
  now := le_rfl
  fetch k' v hv := by
    rw [fetch_dbAdd htdb] at hv
    split_ifs at hv
    · obtain rfl := Option.some.inj hv
      exact .inr (itemTim_cacheitem hnow)
    · exact .inl hv

/-- Each step of any process keeps the invariant. -/
theorem inv_step (htdb : tdb.Lawful) (h : Inv tdb expire s) (hnow : s.Timed) {a : Act}
    (hs : step tdb expire s a = some s') : Inv tdb expire s' := by
  cases a with
  | tick =>
    obtain rfl := Option.some.inj hs
    -- no process moves, so that any of them will do
    have hlater : Later tdb s { s with now := s.now + 1 } := .of_file rfl (Nat.le_succ _)
    exact h.step_proc hlater (Function.update_eq_self 0 s.proc).symm ((h.right 0).later hlater)
  | openCache p =>
    dsimp only [step] at hs
    split_ifs at hs
    obtain rfl := Option.some.inj hs
    exact inv_openCache htdb h p
  | dbOpen p =>
    dsimp only [step] at hs
    split_ifs at hs
    obtain rfl := Option.some.inj hs
    exact h.set trivial
  | dbClear p =>
    dsimp only [step] at hs
    split_ifs at hs
    obtain rfl := Option.some.inj hs
    exact h.set trivial
  | visit p k =>
    obtain ⟨v, hv, hs⟩ := Option.bind_eq_some_iff.mp hs
    exact inv_visit h hv hs
  | delete p => exact inv_delete htdb h hs
  | finish p => exact inv_finish h hs
  | add p k =>
    dsimp only [step] at hs
    cases hproc : s.proc p with
    | opened expired =>
      rw [hproc] at hs
      obtain rfl := Option.some.inj hs
      have hlater := later_dbAdd htdb hnow k
      exact h.step_proc hlater (Function.update_eq_self p s.proc).symm ((h.right p).later hlater)
    | _ =>
      rw [hproc] at hs
      cases hs
  | remove p k =>
    dsimp only [step] at hs
    have hright := h.right p
    cases hproc : s.proc p with
    | opened expired =>
      rw [hproc] at hs hright
      obtain rfl := Option.some.inj hs
      split_ifs
      · refine h.set ?_
        cases expired with
        | none => trivial
        | some n => exact hright
      · exact h
    | _ =>
      rw [hproc] at hs
      cases hs
  | close p =>
    obtain rfl := Option.some.inj hs
    exact h.set trivial

/-! ## Keys that stay -/

/-- The key is there, and has been added at `tim` or later. -/
def Found (tdb : Tdb T) (k : Key) (tim : ℕ) (s : Sys T) : Prop :=
  ∃ v tim', tdb.fetch s.file k = some v ∧ itemTim v = some tim' ∧ tim ≤ tim'

/-- No process is about to delete the key, and the cache is not being cleared. -/
def Idle (k : Key) (s : Sys T) : Prop :=
  ∀ p, (s.proc p).deletes ≠ some k ∧ (s.proc p).clears = false

/-- The key is removed, or the cache is cleared. -/
def Act.removes (k : Key) : Act → Bool
  | remove _ k' => k' = k
  | dbClear _ => true
  | _ => false

/-- A process that does not delete the key leaves it idle. -/
theorem Idle.update {k : Key} (h : Idle k s) {p : ℕ} {x : Proc}
    (hproc : s'.proc = Function.update s.proc p x) (hdeletes : x.deletes ≠ some k)
    (hclears : x.clears = false) : Idle k s' := by
  intro q
  rw [hproc]
  by_cases hq : q = p
  · rw [hq, Function.update_self]
    exact ⟨hdeletes, hclears⟩
  · rw [Function.update_of_ne hq]
    exact h q

theorem Idle.set {k : Key} (h : Idle k s) {p : ℕ} {x : Proc} (hdeletes : x.deletes ≠ some k)
    (hclears : x.clears = false) : Idle k (s.set p x) := h.update rfl hdeletes hclears

/-- The deletion of another key. -/
theorem Found.delete (htdb : tdb.Lawful) {k k' : Key} {tim : ℕ} (h : Found tdb k tim s)
    (hk : k' ≠ k) (hfile : s'.file = (dbRemove tdb k' s.file).2) : Found tdb k tim s' := by
  obtain ⟨v, tim', hv, htim', hle⟩ := h
  refine ⟨v, tim', ?_, htim', hle⟩
  rw [hfile, fetch_dbRemove htdb, if_neg hk.symm]
  exact hv

section

variable {k : Key} {tim : ℕ}

/-- Visiting a record that is not old does not delete it. -/
theorem stays_visit (hinv : Inv tdb expire s) {A : ℕ} (hage : ∀ p, expire p = 0 ∨ A ≤ expire p)
    (hnow : s.now ≤ tim + A) (hfound : Found tdb k tim s) (hidle : Idle k s) {p : ℕ} {k' : Key}
    {v : Data} (hv : tdb.fetch s.file k' = some v) (hs : visit (expire p) p k' v s = some s') :
    Found tdb k tim s' ∧ Idle k s' := by
  have hright := hinv.right p
  obtain ⟨-, hclears⟩ := hidle p
  unfold visit at hs
  cases hproc : s.proc p with
  | expiring begun todo =>
    rw [hproc] at hs hright
    obtain ⟨hzero, hbegun, -⟩ := hright
    cases htim : itemTim v with
    | none =>
      rw [htim] at hs
      obtain rfl := Option.some.inj hs
      exact ⟨hfound, hidle.set nofun rfl⟩
    | some tim' =>
      rw [htim] at hs
      obtain rfl := Option.some.inj hs
      refine ⟨hfound, ?_⟩
      split_ifs with hold
      · refine hidle.set ?_ rfl
        -- a record that is to be deleted is older than the key
        intro hk
        obtain rfl : k' = k := Option.some.inj hk
        obtain ⟨v', tim'', hv', htim'', hle⟩ := hfound
        obtain rfl : v = v' := Option.some.inj (hv.symm.trans hv')
        obtain rfl : tim' = tim'' := Option.some.inj (htim.symm.trans htim'')
        have hexpire := (hage p).resolve_left hzero
        omega
      · exact hidle.set nofun rfl
  | clearing =>
    rw [hproc] at hclears
    cases hclears
  | _ =>
    rw [hproc] at hs
    cases hs

/-- Deleting another key keeps the one that is looked at. -/
theorem stays_delete (htdb : tdb.Lawful) (hfound : Found tdb k tim s) (hidle : Idle k s) {p : ℕ}
    (hs : delete tdb p s = some s') : Found tdb k tim s' ∧ Idle k s' := by
  obtain ⟨hdeletes, hclears⟩ := hidle p
  unfold delete at hs
  cases hproc : s.proc p with
  | expiringItem begun todo k' =>
    rw [hproc] at hs hdeletes
    obtain rfl := Option.some.inj hs
    have hk : k' ≠ k := fun hk => hdeletes (congrArg some hk)
    refine ⟨hfound.delete htdb hk rfl, hidle.update rfl ?_ ?_⟩
    · split_ifs
      · exact nofun
      · exact nofun
    · split_ifs
      · rfl
      · rfl
  | removing expired k' =>
    rw [hproc] at hs hdeletes
    obtain rfl := Option.some.inj hs
    have hk : k' ≠ k := fun hk => hdeletes (congrArg some hk)
    exact ⟨hfound.delete htdb hk rfl, hidle.update rfl nofun rfl⟩
  | clearingItem k' =>
    rw [hproc] at hclears
    cases hclears
  | _ =>
    rw [hproc] at hs
    cases hs

/-- What one step leaves of a key that is young enough. -/
theorem stays_step (htdb : tdb.Lawful) (hinv : Inv tdb expire s) (htimed : s.Timed) {A : ℕ}
    (hage : ∀ p, expire p = 0 ∨ A ≤ expire p) (hnow : s.now ≤ tim + A)
    (hfound : Found tdb k tim s) (hidle : Idle k s) {a : Act} (ha : a.removes k = false)
    (hs : step tdb expire s a = some s') : Found tdb k tim s' ∧ Idle k s' := by
  cases a with
  | tick =>
    obtain rfl := Option.some.inj hs
    exact ⟨hfound, hidle⟩
  | openCache p =>
    dsimp only [step] at hs
    split_ifs at hs
    obtain rfl := Option.some.inj hs
    unfold openCache
    split_ifs
    · exact ⟨hfound, hidle.set nofun rfl⟩
    · exact ⟨hfound, hidle.set nofun rfl⟩
    · exact ⟨hfound, hidle.set nofun rfl⟩
  | dbOpen p =>
    dsimp only [step] at hs
    split_ifs at hs
    obtain rfl := Option.some.inj hs
    exact ⟨hfound, hidle.set nofun rfl⟩
  | dbClear p => cases ha
  | visit p k' =>
    obtain ⟨v, hv, hs⟩ := Option.bind_eq_some_iff.mp hs
    exact stays_visit hinv hage hnow hfound hidle hv hs
  | delete p => exact stays_delete htdb hfound hidle hs
  | finish p =>
    have hs : finish tdb p s = some s' := hs
    unfold finish at hs
    split at hs
    · split_ifs at hs
      obtain rfl := Option.some.inj hs
      exact ⟨hfound, hidle.set nofun rfl⟩
    · obtain rfl := Option.some.inj hs
      exact ⟨hfound, hidle.set nofun rfl⟩
    · cases hs
  | add p k' =>
    dsimp only [step] at hs
    split at hs
    · obtain rfl := Option.some.inj hs
      refine ⟨?_, hidle⟩
      obtain ⟨v, tim', hv, htim', hle⟩ := hfound
      by_cases hk : k = k'
      · -- the key is added once more
        obtain ⟨tim'', hbefore, htim''⟩ := hinv.items k v hv
        obtain rfl : tim' = tim'' := Option.some.inj (htim'.symm.trans htim'')
        refine ⟨cacheitem s.now, s.now, ?_, itemTim_cacheitem htimed, by omega⟩
        exact (fetch_dbAdd htdb _ _ _ _).trans (if_pos hk)
      · exact ⟨v, tim', ((fetch_dbAdd htdb _ _ _ _).trans (if_neg hk)).trans hv, htim', hle⟩
    · cases hs
  | remove p k' =>
    have hk : k' ≠ k := by simpa [Act.removes] using ha
    dsimp only [step] at hs
    split at hs
    · obtain rfl := Option.some.inj hs
      split_ifs
      · exact ⟨hfound, hidle.set (fun h => hk (Option.some.inj h)) rfl⟩
      · exact ⟨hfound, hidle⟩
    · cases hs
  | close p =>
    obtain rfl := Option.some.inj hs
    exact ⟨hfound, hidle.set nofun rfl⟩

/-- No step turns the clock back. -/
theorem step_now {a : Act} (hs : step tdb expire s a = some s') : s.now ≤ s'.now := by
  cases a with
  | tick =>
    obtain rfl := Option.some.inj hs
    exact Nat.le_succ _
  | openCache p =>
    dsimp only [step] at hs
    split_ifs at hs
    obtain rfl := Option.some.inj hs
    unfold openCache
    split_ifs <;> rfl
  | visit p k =>
    obtain ⟨v, -, hs⟩ := Option.bind_eq_some_iff.mp hs
    unfold visit at hs
    split at hs
    · split at hs <;> obtain rfl := Option.some.inj hs <;> rfl
    · obtain rfl := Option.some.inj hs
      rfl
    · cases hs
  | delete p =>
    dsimp only [step, delete] at hs
    split at hs
    · obtain rfl := Option.some.inj hs
      rfl
    · obtain rfl := Option.some.inj hs
      rfl
    · obtain rfl := Option.some.inj hs
      rfl
    · cases hs
  | finish p =>
    dsimp only [step, finish] at hs
    split at hs
    · split_ifs at hs
      obtain rfl := Option.some.inj hs
      rfl
    · obtain rfl := Option.some.inj hs
      rfl
    · cases hs
  | dbOpen p | dbClear p =>
    dsimp only [step] at hs
    split_ifs at hs
    obtain rfl := Option.some.inj hs
    rfl
  | add p k =>
    dsimp only [step] at hs
    split at hs
    · obtain rfl := Option.some.inj hs
      rfl
    · cases hs
  | remove p k =>
    dsimp only [step] at hs
    split at hs
    · obtain rfl := Option.some.inj hs
      split_ifs <;> rfl
    · cases hs
  | close p =>
    obtain rfl := Option.some.inj hs
    rfl

end

/-! ## Runs -/

/-- The processes have not yet begun, and fdm has written what is in the file. -/
structure Begins (tdb : Tdb T) (s : Sys T) : Prop where
  closed : ∀ p, s.proc p = .closed
  items : ∀ k v, tdb.fetch s.file k = some v → ∃ tim ≤ s.now, itemTim v = some tim

/-- And so does each run. -/
theorem inv_run (htdb : tdb.Lawful) {s₀ : Sys T} (hbegins : Begins tdb s₀)
    {G : Sys T → Act → Prop} (hG : ∀ s a, G s a → s.Timed)
    (h : Reach (step tdb expire) G s₀ s) : Inv tdb expire s := by
  refine h.invariant ⟨hbegins.items, ?_⟩ fun s a s' hinv hg hs => inv_step htdb hinv (hG s a hg) hs
  intro p
  rw [hbegins.closed]
  trivial

/-- A file of two records, of which one is old. -/
def sampleBegin : Sys (List (Key × Data)) where
  file := [("old".toList, cacheitem 80), ("new".toList, cacheitem 95)]
  now := 100

/-- Both records have been written by fdm. -/
theorem sample_begins : Begins listTdb sampleBegin where
  closed _ := rfl
  items k v hv := by
    obtain ⟨x, hx, rfl⟩ := Option.map_eq_some_iff.mp hv
    have hmem := List.mem_of_find?_eq_some hx
    rcases List.mem_pair.mp hmem with rfl | rfl
    · exact ⟨80, by decide, itemTim_cacheitem (by omega)⟩
    · exact ⟨95, by decide, itemTim_cacheitem (by omega)⟩

/-- A process opens the cache and goes through it, while another one adds a key and removes one that
the first has yet to visit. -/
def sampleRun : Option (Sys (List (Key × Data))) :=
  exec (guarded (step listTdb fun _ => 10) fun s _ => decide s.Timed) sampleBegin
    [.openCache 0, .visit 0 "old".toList, .dbOpen 1, .remove 1 "new".toList, .delete 0, .delete 1,
      .tick, .add 1 "more".toList, .finish 0]

/-- Whatever other processes do, one that has expired the cache finds no key that was older then
than the configuration says. -/
theorem never_old (htdb : tdb.Lawful) {s₀ : Sys T} (hbegins : Begins tdb s₀)
    (h : Reach (step tdb expire) (fun s _ => s.Timed) s₀ s) {p n : ℕ}
    (hopened : s.proc p = .opened (some n)) {k : Key} (hfound : dbContains tdb k s.file = true) :
    ∃ v tim, tdb.fetch s.file k = some v ∧ itemTim v = some tim ∧ n ≤ tim + expire p ∧
      tim ≤ s.now := by
  have hinv := inv_run htdb hbegins (fun _ _ h => h) h
  obtain ⟨v, hv⟩ := Option.isSome_iff_exists.mp hfound
  obtain ⟨tim, hle, htim⟩ := hinv.items k v hv
  have hright := hinv.right p
  rw [hopened] at hright
  obtain ⟨-, hyoung⟩ := hright
  exact ⟨v, tim, hv, htim, (hyoung k v tim hv htim).resolve_right id, hle⟩

/-- The old key is expired, the young one removed, and another one added. -/
theorem never_old_sample : sampleRun.map (fun s => s.file.map Prod.fst) = some ["more".toList] ∧
    ∀ s, sampleRun = some s →
      ∃ v tim, listTdb.fetch s.file "more".toList = some v ∧ itemTim v = some tim ∧
        100 ≤ tim + 10 ∧ tim ≤ s.now := by
  refine ⟨by decide, fun s hs => ?_⟩
  have hproc : sampleRun.map (fun s => s.proc 0) = some (.opened (some 100)) := by decide
  have hfound : sampleRun.map (fun s => dbContains listTdb "more".toList s.file) = some true := by
    decide
  rw [hs] at hproc hfound
  exact never_old listTdb_lawful sample_begins
    (reach_of_execGuarded (fun _ _ => of_decide_eq_true) hs) (Option.some.inj hproc)
    (Option.some.inj hfound)

/-- A key that is in the cache when nobody is about to delete it stays there until it is removed, or
the cache is cleared, or it is as old as some configuration says. -/
theorem stays_young (htdb : tdb.Lawful) {s₀ : Sys T} (hbegins : Begins tdb s₀)
    (h₀ : Reach (step tdb expire) (fun s _ => s.Timed) s₀ s) {A : ℕ}
    (hage : ∀ p, expire p = 0 ∨ A ≤ expire p) {k : Key} {v : Data} {tim : ℕ}
    (hv : tdb.fetch s.file k = some v) (htim : itemTim v = some tim) (hidle : Idle k s)
    (h : Reach (step tdb expire) (fun s a => s.Timed ∧ a.removes k = false) s s')
    (hnow : s'.now ≤ tim + A) :
    ∃ v' tim', tdb.fetch s'.file k = some v' ∧ itemTim v' = some tim' ∧ tim ≤ tim' := by
  -- the key is old only at the end, so that the induction carries the implication
  have hrun : Inv tdb expire s' ∧ (s'.now ≤ tim + A → Found tdb k tim s' ∧ Idle k s') := by
    refine h.invariant (I := fun s => Inv tdb expire s ∧
      (s.now ≤ tim + A → Found tdb k tim s ∧ Idle k s)) ?_ ?_
    · exact ⟨inv_run htdb hbegins (fun _ _ h => h) h₀, fun _ => ⟨⟨v, tim, hv, htim, le_rfl⟩, hidle⟩⟩
    · intro s a s' ⟨hinv, hstays⟩ ⟨htimed, ha⟩ hs
      refine ⟨inv_step htdb hinv htimed hs, ?_⟩
      intro hnow'
      have hbefore : s.now ≤ tim + A := (step_now hs).trans hnow'
      obtain ⟨hfound, hidle⟩ := hstays hbefore
      exact stays_step htdb hinv htimed hage hbefore hfound hidle ha hs
  exact (hrun.2 hnow).1

/-- A process goes through the cache, and another one removes a key and adds the young one once
more. -/
def sampleStays : Option (Sys (List (Key × Data))) :=
  exec (guarded (step listTdb fun _ => 10)
    fun s a => decide (s.Timed ∧ a.removes "new".toList = false)) sampleBegin
    [.openCache 0, .visit 0 "old".toList, .dbOpen 1, .remove 1 "old".toList, .delete 0,
      .delete 1, .visit 0 "new".toList, .tick, .add 1 "new".toList, .finish 0]

/-- The young key stays, with a later time. -/
theorem stays_young_sample : sampleStays.map (fun s => s.now) = some 101 ∧
    ∀ s, sampleStays = some s →
      ∃ v tim, listTdb.fetch s.file "new".toList = some v ∧ itemTim v = some tim ∧ 95 ≤ tim := by
  refine ⟨by decide, fun s hs => ?_⟩
  have hnow : sampleStays.map (fun s => s.now) = some 101 := by decide
  rw [hs] at hnow
  obtain hnow : s.now = 101 := Option.some.inj hnow
  exact stays_young listTdb_lawful sample_begins .refl (fun _ => .inr le_rfl) rfl
    (itemTim_cacheitem (by omega)) (fun _ => ⟨nofun, rfl⟩)
    (reach_of_execGuarded (fun _ _ => of_decide_eq_true) hs) (by omega)

end Fdm.Cache
