import Fdm.Nntp.Defs
import Fdm.Fetch.Stream
import Fdm.Lib.Upsert

/-!
# The NNTP cache file

`fetch_nntp_save` writes a line for every group that has an id: the length of its name and
the name, the number of the last article, the length of the id and the id. `fetch_nntp_load`
looks for each number with `fscanf`, which skips all white space behind it as well, and
reads the name and the id with `fread`, which fails when there is nothing to be read.

* `loadEntries_lines`: lines whose id can be found are read back;
* `legible_of_loadEntries`: no other id is ever loaded;
* `restored_iff`: when a cache file restores the groups.
-/

namespace Fdm.Nntp

open Fdm.Fetch Lib.Scanf Lib.Upsert

/-! ## Lines -/

/-- What a line of the cache file says. -/
structure Entry where
  name : List Char
  last : ℕ
  id : List Char
deriving DecidableEq, Repr

/-- What `fetch_nntp_save` writes of the groups. -/
def entries (gs : List FetchNntpGroup) : List Entry :=
  gs.filterMap fun g => g.id.map fun id => ⟨g.name, g.last, id⟩

namespace Entry

def line (e : Entry) : List Char :=
  decimal e.name.length ++ ' ' :: (e.name ++ ' ' :: (decimal e.last ++
    ' ' :: (decimal e.id.length ++ ' ' :: (e.id ++ ['\n']))))

/-- The group with what the line says. -/
def put (e : Entry) (g : FetchNntpGroup) : FetchNntpGroup :=
  { g with last := e.last, id := some e.id }

/-- A group that is kept for the cache file only. -/
def ignored (e : Entry) : FetchNntpGroup :=
  { name := e.name, ignore := true, last := e.last, id := some e.id }

/-- What can be in a line: the name of a group without white space, a number that fits in
an `unsigned int`, and an id that `fetch_nntp_parse223` has taken from a line. -/
structure Valid (e : Entry) : Prop where
  name : e.name ≠ []
  blank : ∀ c ∈ e.name, isSpace c = false
  nul : '\x00' ∉ e.name
  nameLen : e.name.length < 2 ^ 64
  last : e.last < 2 ^ 32
  id : ∃ s n, parse223 (cstr s) = some (n, e.id)
  idLen : e.id.length < 2 ^ 64

end Entry

/-- An id that is found behind its length. -/
def Legible (id : List Char) : Prop := ∃ c s, id = c :: s ∧ isSpace c = false

/-- Groups are filled from lines. -/
def groupTable : Table FetchNntpGroup Entry (List Char) where
  key := FetchNntpGroup.name
  name := Entry.name
  put := Entry.put
  new := Entry.ignored
  key_put _ _ := rfl
  key_new _ := rfl
  put_put _ _ _ := rfl

/-- An entry of the file changes the group that has its name, or adds one. -/
theorem fillGroup_eq (e : Entry) (gs : List FetchNntpGroup) :
    fillGroup e.name e.last e.id gs = groupTable.upsert e gs := by
  induction gs with
  | nil => rfl
  | cons g gs ih =>
    rw [fillGroup, Table.upsert, ih]
    rfl

/-- The file has a line for each group that was entered. -/
theorem saveFile_eq (gs : List FetchNntpGroup) : saveFile gs = (entries gs).flatMap Entry.line := by
  induction gs with
  | nil => rfl
  | cons g gs ih =>
    have hcons : saveFile (g :: gs) = saveEntry g ++ saveFile gs := rfl
    rw [hcons, ih, entries, entries]
    cases hid : g.id with
    | none =>
      rw [List.filterMap_cons_none (by rw [hid]; rfl), saveEntry, hid, List.nil_append]
    | some id =>
      rw [List.filterMap_cons_some (by rw [hid]; rfl), saveEntry, hid, List.flatMap_cons]
      simp [Entry.line]

/-- An id that was parsed has no NUL, as the line is a string of C. -/
theorem nul_of_parse223 {s id : List Char} {n : ℕ} (h : parse223 (cstr s) = some (n, id)) :
    '\x00' ∉ id := by
  unfold parse223 at h
  split at h
  · next ptr _ hptr =>
    split_ifs at h
    obtain ⟨-, rfl⟩ := Prod.mk.inj (Option.some.inj h)
    intro hmem
    have htail : '\x00' ∈ (cstr s).dropWhile (· ≠ '<') := by
      rw [hptr]
      exact List.mem_cons_of_mem _ ((List.takeWhile_prefix _).mem hmem)
    have hline : '\x00' ∈ cstr s := (List.dropWhile_suffix _).mem htail
    have hne := List.mem_takeWhile_imp hline
    simp at hne
  · cases h

/-- The line of an entry has no NUL. -/
theorem Entry.Valid.nul_line {e : Entry} (h : e.Valid) : '\x00' ∉ e.line := by
  obtain ⟨s, n, hid⟩ := h.id
  have hid := nul_of_parse223 hid
  have hdec := not_mem_decimal (c := '\x00') (by decide)
  simp [Entry.line, hdec, hid, h.nul]

/-! ## Reading lines back -/

/-- A blank behind a number is skipped, up to what does not begin with white space. -/
theorem dropWhile_blank {s t : List Char} (h : Legible s) :
    (' ' :: (s ++ t)).dropWhile isSpace = s ++ t := by
  obtain ⟨c, s, rfl, hc⟩ := h
  rw [List.dropWhile_cons_of_pos (by decide), List.cons_append,
    List.dropWhile_cons_of_neg (by simp [hc])]

/-- The name of a group is legible. -/
theorem Entry.Valid.legible_name {e : Entry} (h : e.Valid) : Legible e.name := by
  obtain ⟨c, s, hname⟩ := List.exists_cons_of_ne_nil h.name
  refine ⟨c, s, hname, h.blank c ?_⟩
  rw [hname]
  exact List.mem_cons_self

/-- What is legible is not empty. -/
theorem Legible.ne_nil {id : List Char} (h : Legible id) : id ≠ [] := by
  obtain ⟨c, s, rfl, -⟩ := h
  exact List.cons_ne_nil c s

/-- As many bytes as were written are read. -/
theorem takeBytes_append {s t : List Char} (h : s ≠ []) :
    takeBytes s.length (s ++ t) = some (s, t) :=
  takeBytes_eq_some.mpr ⟨mt List.length_eq_zero_iff.mp h, rfl, rfl⟩

/-- One line is read back. -/
theorem loadEntries_line {e : Entry} (hvalid : e.Valid) (hid : Legible e.id) {ws : List Char}
    (hws : ∀ c ∈ ws, isSpace c = true) (fuel : ℕ) (rest : List Char) (gs : List FetchNntpGroup) :
    loadEntries (fuel + 1) (ws ++ (e.line ++ rest)) gs
      = loadEntries fuel ('\n' :: rest) (groupTable.upsert e gs) := by
  have hspace : ∀ s : List Char, ∀ c ∈ (' ' :: s).head?, c.isDigit = false := by
    intro s c hc
    obtain rfl : ' ' = c := by simpa using hc
    rfl
  obtain ⟨tail, htail⟩ : ∃ tail, tail = decimal e.last ++ ' ' :: (decimal e.id.length ++
      ' ' :: (e.id ++ '\n' :: rest)) := ⟨_, rfl⟩
  have htext : ws ++ (e.line ++ rest)
      = ws ++ (decimal e.name.length ++ ' ' :: (e.name ++ ' ' :: tail)) := by
    simp [Entry.line, htail]
  have hnamelen : scanNum 64 (ws ++ (e.line ++ rest))
      = some (e.name.length, ' ' :: (e.name ++ ' ' :: tail)) := by
    rw [htext, scanNum_append_of_isSpace hws]
    exact scanNum_decimal hvalid.nameLen (hspace _)
  have hlast : scanNum 32 (' ' :: tail)
      = some (e.last, ' ' :: (decimal e.id.length ++ ' ' :: (e.id ++ '\n' :: rest))) := by
    rw [htail]
    show scanNum 32 ([' '] ++ _) = _
    rw [scanNum_append_of_isSpace (by simp [isSpace])]
    exact scanNum_decimal_bits (by decide) hvalid.last (hspace _)
  have hidlen : scanNum 64 (' ' :: (decimal e.id.length ++ ' ' :: (e.id ++ '\n' :: rest)))
      = some (e.id.length, ' ' :: (e.id ++ '\n' :: rest)) := by
    show scanNum 64 ([' '] ++ _) = _
    rw [scanNum_append_of_isSpace (by simp [isSpace])]
    exact scanNum_decimal hvalid.idLen (hspace _)
  obtain ⟨s, n, hparse⟩ := hvalid.id
  rw [loadEntries, hnamelen]
  dsimp only
  rw [dropWhile_blank hvalid.legible_name, takeBytes_append hvalid.name]
  dsimp only
  rw [hlast]
  dsimp only
  rw [hidlen]
  dsimp only
  rw [dropWhile_blank hid, takeBytes_append hid.ne_nil]
  dsimp only
  rw [cstr_of_not_mem hvalid.nul, cstr_of_not_mem (nul_of_parse223 hparse), fillGroup_eq]

/-- The lines are read one by one, with white space left over from the line before in front
of each. -/
theorem loadEntries_lines {es : List Entry} (hvalid : ∀ e ∈ es, e.Valid)
    (hid : ∀ e ∈ es, Legible e.id) {fuel : ℕ} (hfuel : es.length < fuel) (ws : List Char)
    (hws : ∀ c ∈ ws, isSpace c = true) (gs : List FetchNntpGroup) :
    loadEntries fuel (ws ++ es.flatMap Entry.line) gs = some (groupTable.upsertAll es gs) := by
  induction es generalizing fuel ws gs with
  | nil =>
    obtain ⟨fuel, rfl⟩ : ∃ k, fuel = k + 1 := ⟨fuel - 1, by simp at hfuel; omega⟩
    have hskip : ws.dropWhile isSpace = [] := List.dropWhile_eq_nil_iff.mpr hws
    simp [loadEntries, scanNum, hskip, takeSign, Table.upsertAll]
  | cons e es ih =>
    obtain ⟨fuel, rfl⟩ : ∃ k, fuel = k + 1 := ⟨fuel - 1, by simp at hfuel; omega⟩
    rw [List.length_cons] at hfuel
    rw [List.flatMap_cons, loadEntries_line (hvalid e List.mem_cons_self)
      (hid e List.mem_cons_self) hws]
    exact ih (fun x hx => hvalid x (List.mem_cons_of_mem e hx))
      (fun x hx => hid x (List.mem_cons_of_mem e hx)) (by omega) ['\n']
      (by simp [isSpace]) _

/-- What `fread` finds behind white space begins with something else. -/
theorem legible_of_takeBytes {n : ℕ} {s id rest : List Char}
    (h : takeBytes n (s.dropWhile isSpace) = some (id, rest)) :
    Legible id ∧ id <:+: s ∧ rest <:+ s := by
  obtain ⟨hn, hlen, heq⟩ := takeBytes_eq_some.mp h
  have hsuffix : id ++ rest <:+ s := heq ▸ List.dropWhile_suffix _
  refine ⟨?_, ?_, (List.suffix_append id rest).trans hsuffix⟩
  · cases id with
    | nil => exact absurd hlen.symm hn
    | cons c t =>
      refine ⟨c, t, rfl, ?_⟩
      have hhead := List.head?_dropWhile_not isSpace s
      rw [heq] at hhead
      simpa using hhead
  · exact (List.prefix_append id rest).isInfix.trans hsuffix.isInfix

/-- A pass of the loop ends it, or puts in what stands in the file. -/
theorem loadEntries_cases {fuel : ℕ} {s : List Char} {gs gs' : List FetchNntpGroup}
    (h : loadEntries (fuel + 1) s gs = some gs') :
    gs' = gs ∨ ∃ name last id rest, Legible id ∧ id <:+: s ∧ rest <:+ s ∧
      loadEntries fuel rest (fillGroup (cstr name) last (cstr id) gs) = some gs' := by
  unfold loadEntries at h
  split at h
  · split_ifs at h
    exact Or.inl (Option.some.inj h).symm
  · next hnamelen =>
    split at h
    · cases h
    · next name _ hname =>
      split at h
      · cases h
      · next last _ hlast =>
        split at h
        · cases h
        · next hidlen =>
          split at h
          · cases h
          · next id rest hid =>
            obtain ⟨hlegible, hpart, hsuffix⟩ := legible_of_takeBytes hid
            have hfront := (scanNum_suffix hidlen).trans ((scanNum_suffix hlast).trans
              ((legible_of_takeBytes hname).2.2.trans (scanNum_suffix hnamelen)))
            exact Or.inr ⟨name, last, id, rest, hlegible, hpart.trans hfront.isInfix,
              hsuffix.trans hfront, h⟩

/-- An entry of the file changes no other group. -/
theorem id_of_mem_fillGroup {name id : List Char} {last : ℕ} {gs : List FetchNntpGroup}
    {g : FetchNntpGroup} (h : g ∈ fillGroup name last id gs) : g ∈ gs ∨ g.id = some id := by
  induction gs with
  | nil =>
    rw [fillGroup, List.mem_singleton] at h
    exact Or.inr (by rw [h])
  | cons x gs ih =>
    rw [fillGroup] at h
    by_cases hname : x.name = name
    · rw [if_pos hname, List.mem_cons] at h
      rcases h with rfl | h
      · exact Or.inr rfl
      · exact Or.inl (List.mem_cons_of_mem x h)
    · rw [if_neg hname, List.mem_cons] at h
      rcases h with rfl | h
      · exact Or.inl List.mem_cons_self
      · exact (ih h).imp_left (List.mem_cons_of_mem x)

/-- Every id that is loaded begins with something that is not white space. -/
theorem legible_of_loadEntries {fuel : ℕ} {s : List Char} {gs gs' : List FetchNntpGroup}
    (hnul : '\x00' ∉ s) (h : loadEntries fuel s gs = some gs')
    (hgs : ∀ g ∈ gs, ∀ id, g.id = some id → Legible id) :
    ∀ g ∈ gs', ∀ id, g.id = some id → Legible id := by
  induction fuel generalizing s gs with
  | zero => cases h
  | succ fuel ih =>
    rcases loadEntries_cases h with rfl | ⟨name, last, id, rest, hid, hpart, hsuffix, hload⟩
    · exact hgs
    · refine ih (fun hmem => hnul (hsuffix.mem hmem)) hload fun g hg id' hid' => ?_
      rcases id_of_mem_fillGroup hg with hg | hg
      · exact hgs g hg id' hid'
      · rw [hid', Option.some.injEq] at hg
        rwa [hg, cstr_of_not_mem fun hmem => hnul (hpart.mem hmem)]

/-! ## The groups that are restored -/

/-- The group that is configured under this name has what the line for it says, and nothing
when there is no line for it. -/
def Shows (es : List Entry) (name : List Char) (g : FetchNntpGroup) : Prop :=
  (∀ e ∈ es, e.name = name → g = { name := name, last := e.last, id := some e.id }) ∧
    ((∀ e ∈ es, e.name ≠ name) → g = { name := name })

/-- The configured groups have what was saved of them, and behind them is what was saved of
other groups. -/
structure Restored (names : List (List Char)) (es : List Entry) (gs : List FetchNntpGroup) :
    Prop where
  configured : List.Forall₂ (Shows es) names (gs.take names.length)
  carried : gs.drop names.length = (es.filter fun e => e.name ∉ names).map Entry.ignored

/-- No two configured groups are meant by one line, no two lines say something else about a
configured group, and no two lines are about one group that is not configured. -/
structure Unambiguous (names : List (List Char)) (es : List Entry) : Prop where
  once : ∀ e ∈ es, names.count e.name ≤ 1
  same : ∀ name ∈ names, ∀ e ∈ es, ∀ e' ∈ es, e.name = name → e'.name = name → e = e'
  apart : ((es.filter fun e => e.name ∉ names).map Entry.name).Nodup

/-- The groups that are configured, before anything is loaded. -/
def configured (names : List (List Char)) : List FetchNntpGroup :=
  names.map fun name => { name := name }

theorem keys_configured (names : List (List Char)) :
    (configured names).map FetchNntpGroup.name = names := by
  rw [configured, List.map_map]
  exact List.map_id names

/-- The entries are put back as they were exactly if they are unambiguous. -/
theorem restored_upsertAll_iff {names : List (List Char)} {es : List Entry} :
    Restored names es (groupTable.upsertAll es (configured names)) ↔ Unambiguous names es := by
  have hkeys : (configured names).map groupTable.key = names := keys_configured names
  have hlen : (groupTable.placed es (configured names)).length = names.length := by
    rw [Table.length_placed, configured, List.length_map]
  have hfresh : ∀ g ∈ configured names, ∀ e ∈ es, groupTable.key g = groupTable.name e →
      groupTable.put e g ≠ g := by
    intro g hg e _ _ heq
    obtain ⟨name, -, rfl⟩ := List.mem_map.mp hg
    exact absurd (congrArg FetchNntpGroup.id heq) (Option.some_ne_none e.id)
  have hshows : List.Forall₂ (Shows es) names (groupTable.placed es (configured names)) ↔
      List.Forall₂ (groupTable.Right es) (configured names)
        (groupTable.placed es (configured names)) :=
    (List.forall₂_map_left_iff (R := groupTable.Right es)
      (f := fun name => ({ name := name } : FetchNntpGroup))).symm
  have heq : groupTable.upsertAll es (configured names)
      = groupTable.placed es (configured names)
        ++ groupTable.upsertAll (es.filter fun e => e.name ∉ names) [] := by
    rw [Table.upsertAll_eq, hkeys]
    rfl
  rw [heq]
  constructor
  · rintro ⟨hconf, hcarried⟩
    rw [← hlen, List.take_left] at hconf
    rw [← hlen, List.drop_left] at hcarried
    obtain ⟨hcount, hsame⟩ := (Table.right_placed_iff hfresh).mp (hshows.mp hconf)
    rw [hkeys] at hcount
    refine ⟨hcount, fun name hname e he e' he' hen hen' => ?_, Table.upsertAll_nil_iff.mp hcarried⟩
    have hput := hsame { name := name } (List.mem_map_of_mem hname) e he e' he' hen hen'
    have hlast := congrArg FetchNntpGroup.last hput
    have hid := Option.some.inj (congrArg FetchNntpGroup.id hput)
    obtain ⟨n, l, i⟩ := e
    obtain ⟨n', l', i'⟩ := e'
    exact Entry.mk.injEq .. ▸ ⟨hen.trans hen'.symm, hlast, hid⟩
  · rintro ⟨hcount, hsame, hapart⟩
    refine ⟨?_, ?_⟩
    · rw [← hlen, List.take_left]
      refine hshows.mpr ((Table.right_placed_iff hfresh).mpr ⟨?_, fun g hg e he e' he' hen hen' => ?_⟩)
      · rw [hkeys]
        exact hcount
      · obtain ⟨name, hname, rfl⟩ := List.mem_map.mp hg
        rw [hsame name hname e he e' he' hen hen']
    · rw [← hlen, List.drop_left]
      exact Table.upsertAll_nil_iff.mpr hapart

/-- The cache file restores what was saved exactly when every id is there and does not begin
with white space, and the names of the groups leave no doubt. -/
theorem restored_iff {names : List (List Char)} {gs : List FetchNntpGroup}
    (hvalid : ∀ e ∈ entries gs, e.Valid) :
    (∃ gs', load names (some (saveFile gs)) = some gs' ∧ Restored names (entries gs) gs') ↔
      (∀ e ∈ entries gs, Legible e.id) ∧ Unambiguous names (entries gs) := by
  have hfile := saveFile_eq gs
  have hlong : (entries gs).length ≤ (saveFile gs).length := by
    rw [hfile]
    generalize entries gs = es
    induction es with
    | nil => exact Nat.le_refl 0
    | cons e es ih =>
      have hline : 1 ≤ e.line.length := by simp [Entry.line]; omega
      rw [List.flatMap_cons, List.length_append, List.length_cons]
      omega
  have hload : (∀ e ∈ entries gs, Legible e.id) → load names (some (saveFile gs))
      = some (groupTable.upsertAll (entries gs) (configured names)) := by
    intro hid
    have hfuel : (entries gs).length < (saveFile gs).length + 1 := by omega
    have hread := loadEntries_lines hvalid hid hfuel [] (by simp) (configured names)
    rw [List.nil_append, ← hfile] at hread
    exact hread
  constructor
  · rintro ⟨gs', hgs', hrestored⟩
    have hnul : '\x00' ∉ saveFile gs := by
      rw [hfile]
      intro hmem
      obtain ⟨e, he, hmem⟩ := List.mem_flatMap.mp hmem
      exact (hvalid e he).nul_line hmem
    have hall := legible_of_loadEntries hnul hgs' fun g hg id hid => by
      obtain ⟨name, -, rfl⟩ := List.mem_map.mp hg
      cases hid
    have hid : ∀ e ∈ entries gs, Legible e.id := by
      intro e he
      by_cases hname : e.name ∈ names
      · obtain ⟨i, hi, hget⟩ := List.mem_iff_getElem.mp hname
        obtain ⟨hlen, hshows⟩ := List.forall₂_iff_get.mp hrestored.configured
        have hi' : i < (gs'.take names.length).length := hlen ▸ hi
        have hg := (hshows i hi hi').1 e he hget.symm
        exact hall _ ((List.take_prefix _ _).mem (List.get_mem _ ⟨i, hi'⟩)) e.id (by rw [hg])
      · have hmem : e.ignored ∈ gs'.drop names.length := by
          rw [hrestored.carried]
          exact List.mem_map_of_mem (List.mem_filter.mpr ⟨he, by simpa using hname⟩)
        exact hall _ (List.mem_of_mem_drop hmem) e.id rfl
    rw [hload hid, Option.some.injEq] at hgs'
    exact ⟨hid, restored_upsertAll_iff.mp (hgs' ▸ hrestored)⟩
  · rintro ⟨hid, hnames⟩
    exact ⟨_, hload hid, restored_upsertAll_iff.mpr hnames⟩

/-- A group whose last article is number 5. -/
def groupAt (id : List Char) : FetchNntpGroup := { name := "misc.test".toList, last := 5, id := some id }

theorem valid_groupAt {s id : List Char} (hid : parse223 (cstr s) = some (5, id))
    (hlen : id.length < 2 ^ 64) : ∀ e ∈ entries [groupAt id], e.Valid := by
  intro e he
  obtain rfl : e = ⟨"misc.test".toList, 5, id⟩ := List.mem_singleton.mp he
  have hname : "misc.test".toList ≠ [] := by decide
  have hall : ("misc.test".toList.all fun c => !isSpace c) = true := by decide
  have hblank : ∀ c ∈ "misc.test".toList, isSpace c = false := by
    intro c hc
    simpa using List.all_eq_true.mp hall c hc
  have hnul : '\x00' ∉ "misc.test".toList := by decide
  have hnameLen : "misc.test".toList.length < 2 ^ 64 := by decide
  have hlast : 5 < 2 ^ 32 := by decide
  exact ⟨hname, hblank, hnul, hnameLen, hlast, ⟨s, 5, hid⟩, hlen⟩

theorem restored_iff_groupAt :
    (∃ gs', load [['g']] (some (saveFile [groupAt ['a', '@', 'b']])) = some gs' ∧
        Restored [['g']] (entries [groupAt ['a', '@', 'b']]) gs') ↔
      (∀ e ∈ entries [groupAt ['a', '@', 'b']], Legible e.id) ∧
        Unambiguous [['g']] (entries [groupAt ['a', '@', 'b']]) :=
  restored_iff (valid_groupAt (s := "223 5 <a@b>".toList) (by decide +kernel) (by decide))

/-- An article without an id between the angle brackets leaves a cache file that cannot be
loaded. -/
theorem empty_id_invalid :
    parse223 (cstr "223 5 <>".toList) = some (5, []) ∧
      ¬ ∃ gs', load ["misc.test".toList] (some (saveFile [groupAt []])) = some gs' ∧
        Restored ["misc.test".toList] (entries [groupAt []]) gs' := by
  refine ⟨by decide +kernel, ?_⟩
  rintro ⟨gs', hload, -⟩
  have hnone : load ["misc.test".toList] (some (saveFile [groupAt []])) = none := by
    decide +kernel
  rw [hnone] at hload
  cases hload

end Fdm.Nntp
