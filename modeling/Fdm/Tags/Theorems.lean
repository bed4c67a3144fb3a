import Fdm.Tags.Refinement

/-!
# Adding to a string block

* `vadd_room`, `vadd_full`: what `strb_vadd` does with a slot left, and with none;
* `store_refines`: a block answers every lookup with the value most recently added;
* `slot_overrun`: the 65th key is written behind the block.
-/

namespace Fdm.Tags

open Lib.Memory

/-! ## Making room -/

theorem growStr_spec (sb : Strb) (need fuel : ℕ) {strSize : ℕ} (hlt : strSize < 2 ^ 64)
    (hfuel : 2 ^ 64 ≤ strSize * 2 ^ fuel) :
    (∃ n, growStr sb need fuel strSize = .ok n ∧ strSize ≤ n ∧ n < 2 ^ 64 ∧
        need ≤ n - sb.strUsed) ∨
      growStr sb need fuel strSize = .error .fatal := by
  induction fuel generalizing strSize with
  | zero =>
    rw [Nat.pow_zero, Nat.mul_one] at hfuel
    omega
  | succ fuel ih =>
    rw [growStr]
    by_cases hneed : strSize - sb.strUsed < need
    · rw [if_pos hneed]
      by_cases hbig : sizeMax / 2 < strbOffset + strSize + sb.entSize
      · rw [if_pos hbig]
        exact Or.inr rfl
      · rw [if_neg hbig]
        have hhalf : strSize * 2 < 2 ^ 64 := by
          simp only [sizeMax] at hbig
          omega
        have hfuel' : 2 ^ 64 ≤ strSize * 2 * 2 ^ fuel := by
          calc 2 ^ 64 ≤ strSize * 2 ^ (fuel + 1) := hfuel
            _ = strSize * 2 * 2 ^ fuel := by rw [Nat.pow_succ', ← Nat.mul_assoc]
        rcases ih hhalf hfuel' with ⟨n, hn, hle, hmost, hroom⟩ | hfatal
        · exact Or.inl ⟨n, hn, by omega, hmost, hroom⟩
        · exact Or.inr hfatal
    · rw [if_neg hneed]
      exact Or.inl ⟨strSize, rfl, Nat.le_refl _, hlt, by omega⟩

section Adding

variable {sb : Strb} {table : Table}

/-- The entries and the strings are where they should be when the string area has grown. -/
theorem moveEntries_spec (h : Holds sb table) (junk : ℕ → Char) {n : ℕ} (hn : sb.strSize ≤ n)
    (hmost : n < 2 ^ 64) :
    ∃ mem, moveEntries junk n sb = .ok { sb with strSize := n, mem := mem } ∧
      Holds { sb with strSize := n, mem := mem } table := by
  by_cases heq : n = sb.strSize
  · refine ⟨sb.mem, ?_, ?_⟩
    · rw [moveEntries, if_pos heq, heq]
    · rw [heq]
      exact h
  · have hent : sb.entSize = strbEntries * strbentSize := by rw [Strb.entSize, h.entMax]
    have hlen : (resize junk (n + sb.entSize) sb.mem).length = n + sb.entSize := length_resize ..
    obtain ⟨mem₁, hmove⟩ := move_of_le (resize junk (n + sb.entSize) sb.mem) n sb.strSize
      sb.entSize (by omega) (by omega)
    have hlen₁ := length_move hmove
    have hzeros : (List.replicate (n - sb.strSize) nul).length = n - sb.strSize := List.length_replicate
    obtain ⟨mem₂, hwrite⟩ := write_of_le mem₁ (List.replicate (n - sb.strSize) nul) sb.strSize
      (by omega)
    have hlen₂ := length_write hwrite
    refine ⟨mem₂, ?_, ?_⟩
    · rw [moveEntries, if_neg heq]
      dsimp only
      rw [hmove]
      show (inside (write mem₁ _ _) >>= fun mem => _) = _
      rw [hwrite]
      rfl
    · have hused := h.strUsed
      refine ⟨h.entMax, h.entUsed, h.fits, Nat.le_trans h.strUsed hn, Nat.le_trans h.least hn, hmost,
        by rw [hlen₂, hlen₁, hlen, hent], fun i e he => ?_⟩
      obtain ⟨keyOff, valueOff, hs⟩ := h.slots i e he
      obtain ⟨hi, -⟩ := List.getElem?_eq_some_iff.mp he
      have hfits := h.fits
      -- strings end in front of the old entries, which lie in front of the new ones
      have hstring : ∀ off s, At sb.mem off s → off + s.length ≤ sb.strUsed → At mem₂ off s := by
        intro off s hat hend
        exact ((hat.resize (by omega) junk).frame_move hmove (by omega)).frame hwrite (by omega)
      have hkeyEnd := hs.keyEnd
      have hvalueEnd := hs.valueEnd
      refine ⟨keyOff, valueOff, ?_, hs.keyEnd, hs.valueEnd,
        hstring _ _ hs.keyText (by rw [List.length_append, List.length_singleton]; omega),
        hstring _ _ hs.valueText (by rw [List.length_append, List.length_singleton]; omega)⟩
      have hslot : i * strbentSize + strbentSize ≤ sb.entSize := by
        rw [hent]
        simp only [strbEntries, strbentSize] at hfits ⊢
        omega
      have hent' := length_entryBytes keyOff valueOff
      have hold : At (resize junk (n + sb.entSize) sb.mem) (sb.strSize + i * strbentSize)
          (entryBytes keyOff valueOff) :=
        hs.entry.resize (by rw [hent', Strb.entry]; omega) junk
      have hnew := hold.move hmove (by omega)
      exact hnew.frame hwrite (by omega)

/-- A key that is new is written behind the strings. -/
theorem newEntry_spec (h : Holds sb table) (junk : ℕ → Char) (key : List Char)
    (hroom : sb.strUsed + (key.length + 1) ≤ sb.strSize) :
    ∃ mem, newEntry junk key sb = .ok (sb.entUsed, sb.strUsed,
        { sb with
          entUsed := sb.entUsed + 1, strUsed := sb.strUsed + (key.length + 1), mem := mem }) ∧
      mem.length = sb.mem.length ∧ At mem sb.strUsed (key ++ [nul]) ∧
      ∀ off s, At sb.mem off s → off + s.length ≤ sb.strUsed ∨ sb.strSize ≤ off → At mem off s := by
  have hslots : ¬ sb.entMax < sb.entUsed := by
    have hfits := h.fits
    rw [h.entMax, h.entUsed]
    omega
  have hlen : (key ++ [nul]).length = key.length + 1 := by
    rw [List.length_append, List.length_singleton]
  have hmem := h.length
  obtain ⟨mem, hwrite⟩ := write_of_le sb.mem (key ++ [nul]) sb.strUsed (by omega)
  refine ⟨mem, ?_, length_write hwrite, At.write hwrite, fun off s hat hoff => ?_⟩
  · rw [newEntry, if_neg hslots]
    show (inside (write sb.mem sb.strUsed (key ++ [nul])) >>= fun mem => _) = _
    rw [hwrite]
    rfl
  · exact hat.frame hwrite (by omega)

/-- The value is written behind the strings, and its entry into a slot. -/
theorem putValue_spec (sb : Strb) {slot : ℕ} (keyOff : ℕ) {value : List Char}
    (hlength : sb.mem.length = sb.strSize + strbEntries * strbentSize)
    (hroom : sb.strUsed + (value.length + 1) ≤ sb.strSize) (hslot : slot < strbEntries) :
    ∃ mem, putValue slot keyOff value sb
        = .ok { sb with strUsed := sb.strUsed + (value.length + 1), mem := mem } ∧
      mem.length = sb.mem.length ∧ At mem sb.strUsed (value ++ [nul]) ∧
      At mem (sb.entry slot) (entryBytes keyOff sb.strUsed) ∧
      (∀ off s, At sb.mem off s → off + s.length ≤ sb.strUsed → At mem off s) ∧
      ∀ i k v, i ≠ slot → At sb.mem (sb.entry i) (entryBytes k v) →
        At mem (sb.entry i) (entryBytes k v) := by
  have hlen : (value ++ [nul]).length = value.length + 1 := by
    rw [List.length_append, List.length_singleton]
  have hentry : ∀ k v, (entryBytes k v).length = strbentSize := length_entryBytes
  obtain ⟨mem₁, hwrite₁⟩ := write_of_le sb.mem (value ++ [nul]) sb.strUsed (by omega)
  have hlen₁ := length_write hwrite₁
  have hoff : ∀ i, sb.entry i = sb.strSize + i * strbentSize := fun _ => rfl
  have hinside : sb.entry slot + strbentSize ≤ mem₁.length := by
    rw [hlen₁, hlength, hoff]
    simp only [strbEntries, strbentSize] at hslot ⊢
    omega
  obtain ⟨mem₂, hwrite₂⟩ := write_of_le mem₁ (entryBytes keyOff sb.strUsed) (sb.entry slot)
    (by rw [hentry]; exact hinside)
  refine ⟨mem₂, ?_, (length_write hwrite₂).trans hlen₁, ?_, At.write hwrite₂, ?_, ?_⟩
  · rw [putValue, hwrite₁]
    show (inside (write mem₁ _ _) >>= fun mem => _) = _
    rw [hwrite₂]
    rfl
  · have hbefore := hoff slot
    exact (At.write hwrite₁).frame hwrite₂ (by omega)
  · intro off s hat hend
    have hbefore := hoff slot
    exact (hat.frame hwrite₁ (by omega)).frame hwrite₂ (by omega)
  · intro i k v hne hat
    have hk := hentry k v
    have hnew := hentry keyOff sb.strUsed
    have hi := hoff i
    have hs := hoff slot
    refine (hat.frame hwrite₁ (by omega)).frame hwrite₂ ?_
    simp only [strbentSize] at hk hnew hi hs
    omega

/-- What `strb_vadd` does up to its last write: there is room for the key and the value. -/
theorem vadd_start (h : Holds sb table) (junk : ℕ → Char) (key value : List Char) :
    strbVadd junk key value sb = .error .fatal ∨
      ∃ sb', Holds sb' table ∧ sb'.strUsed + (key.length + 1 + (value.length + 1)) ≤ sb'.strSize ∧
        strbVadd junk key value sb =
          slotFor junk key sb' >>= fun r => putValue r.1 r.2.1 value r.2.2 := by
  rw [strbVadd]
  by_cases hlong : intMax < value.length + 1
  · rw [if_pos hlong]
    exact Or.inl rfl
  · rw [if_neg hlong]
    have hleast := h.least
    simp only [strbBlock] at hleast
    rcases growStr_spec sb (key.length + 1 + (value.length + 1)) 64 h.most (by omega) with
      ⟨n, hgrow, hn, hmost, hroom⟩ | hfatal
    · right
      obtain ⟨mem, hmove, hholds⟩ := moveEntries_spec h junk hn hmost
      refine ⟨_, hholds, ?_, ?_⟩
      · show sb.strUsed + (key.length + 1 + (value.length + 1)) ≤ n
        omega
      · rw [hgrow]
        show (moveEntries junk n sb >>= fun sb => _) = _
        rw [hmove]
        rfl
    · left
      rw [hfatal]
      rfl

theorem slotFor_old (h : Holds sb table) (junk : ℕ → Char) {key : CStr} {i : ℕ} {v : CStr}
    (hslot : slotOf key table = some i) (hi : table[i]? = some (key, v)) :
    ∃ keyOff valueOff, slotFor junk key.val sb = .ok (i, keyOff, sb) ∧
      Slot sb i keyOff valueOff key.val v.val := by
  obtain ⟨keyOff, valueOff, hs⟩ := h.slots i (key, v) hi
  obtain ⟨hlt, -⟩ := List.getElem?_eq_some_iff.mp hi
  refine ⟨keyOff, valueOff, ?_, hs⟩
  rw [slotFor, strbAddress_eq h, hslot]
  show (inside (readEntry sb i) >>= fun sbe => _) = _
  rw [hs.readEntry h hlt]
  rfl

theorem slotFor_new (h : Holds sb table) (junk : ℕ → Char) {key : CStr}
    (hslot : slotOf key table = none) : slotFor junk key.val sb = newEntry junk key.val sb := by
  rw [slotFor, strbAddress_eq h, hslot]
  rfl

/-- A key that is in the table gets a new value. -/
theorem replace_value (h : Holds sb table) {key value : CStr} {i keyOff valueOff : ℕ} {v : CStr}
    (hslot : slotOf key table = some i) (hi : table[i]? = some (key, v))
    (hs : Slot sb i keyOff valueOff key.val v.val)
    (hroom : sb.strUsed + (value.val.length + 1) ≤ sb.strSize) :
    ∃ sb', putValue i keyOff value.val sb = .ok sb' ∧ Holds sb' (put key value table) := by
  obtain ⟨hlt, -⟩ := List.getElem?_eq_some_iff.mp hi
  obtain ⟨mem, hput, hmem, hvalue, hentry, hstrings, hothers⟩ :=
    putValue_spec sb keyOff h.length hroom (Nat.lt_of_lt_of_le hlt h.fits)
  rw [(put_of_slot _ hslot).1]
  refine ⟨_, hput, h.entMax, ?_, ?_, hroom, h.least, h.most, hmem.trans h.length, ?_⟩
  · rw [List.length_set]
    exact h.entUsed
  · rw [List.length_set]
    exact h.fits
  · intro j e he
    by_cases hj : j = i
    · subst hj
      rw [List.getElem?_set_self hlt, Option.some_inj] at he
      subst he
      have hkeyEnd := hs.keyEnd
      refine ⟨keyOff, sb.strUsed, hentry, ?_, Nat.le_refl _, ?_, hvalue⟩
      · show keyOff + key.val.length + 1 ≤ sb.strUsed + (value.val.length + 1)
        omega
      · exact hstrings _ _ hs.keyText (by rw [List.length_append, List.length_singleton]; omega)
    · rw [List.getElem?_set_ne (Ne.symm hj)] at he
      obtain ⟨k, w, hs'⟩ := h.slots j e he
      have hkeyEnd := hs'.keyEnd
      have hvalueEnd := hs'.valueEnd
      refine ⟨k, w, hothers j k w hj hs'.entry, ?_, ?_, ?_, ?_⟩
      · show k + e.1.val.length + 1 ≤ sb.strUsed + (value.val.length + 1)
        omega
      · show w + e.2.val.length + 1 ≤ sb.strUsed + (value.val.length + 1)
        omega
      · exact hstrings _ _ hs'.keyText (by rw [List.length_append, List.length_singleton]; omega)
      · exact hstrings _ _ hs'.valueText (by rw [List.length_append, List.length_singleton]; omega)

/-- A key that is not in the table gets a slot of its own. -/
theorem add_entry (h : Holds sb table) (junk : ℕ → Char) {key : CStr} (value : CStr)
    (hslot : slotOf key table = none) (hroom : table.length < strbEntries)
    (hfits : sb.strUsed + (key.val.length + 1 + (value.val.length + 1)) ≤ sb.strSize) :
    ∃ sb', (newEntry junk key.val sb >>= fun r => putValue r.1 r.2.1 value.val r.2.2) = .ok sb' ∧
      Holds sb' (put key value table) ∧ sb'.strSize = sb.strSize ∧
      sb'.strUsed = sb.strUsed + (key.val.length + 1) + (value.val.length + 1) := by
  obtain ⟨mem₁, hnew, hmem₁, hkey, hkeep⟩ := newEntry_spec h junk key.val (by omega)
  obtain ⟨mem, hput, hmem, hvalue, hentry, hstrings, hothers⟩ :=
    putValue_spec { sb with
        entUsed := sb.entUsed + 1, strUsed := sb.strUsed + (key.val.length + 1), mem := mem₁ }
      sb.strUsed (hmem₁.trans h.length)
      (show sb.strUsed + (key.val.length + 1) + (value.val.length + 1) ≤ sb.strSize by omega)
      (h.entUsed ▸ hroom : sb.entUsed < strbEntries)
  rw [put_of_no_slot hslot, hnew]
  refine ⟨_, hput, ?_, rfl, rfl⟩
  refine ⟨h.entMax, ?_, ?_, ?_, h.least, h.most, (hmem.trans hmem₁).trans h.length, ?_⟩
  · show sb.entUsed + 1 = _
    rw [List.length_append, h.entUsed]
    rfl
  · rw [List.length_append]
    exact hroom
  · show sb.strUsed + (key.val.length + 1) + (value.val.length + 1) ≤ sb.strSize
    omega
  · intro j e he
    by_cases hj : j < table.length
    · rw [List.getElem?_append_left hj] at he
      obtain ⟨k, w, hs'⟩ := h.slots j e he
      have hkeyEnd := hs'.keyEnd
      have hvalueEnd := hs'.valueEnd
      have hslots : sb.strSize ≤ sb.entry j := Nat.le_add_right _ _
      have hne : j ≠ sb.entUsed := by
        rw [h.entUsed]
        omega
      have hold := hothers j k w hne (hkeep _ _ hs'.entry (Or.inr hslots))
      refine ⟨k, w, hold, ?_, ?_, ?_, ?_⟩
      · show k + e.1.val.length + 1 ≤ sb.strUsed + (key.val.length + 1) + (value.val.length + 1)
        omega
      · show w + e.2.val.length + 1 ≤ sb.strUsed + (key.val.length + 1) + (value.val.length + 1)
        omega
      · have hlen : (e.1.val ++ [nul]).length = e.1.val.length + 1 := by
          rw [List.length_append, List.length_singleton]
        exact hstrings _ _ (hkeep _ _ hs'.keyText (by omega)) (by show _ ≤ sb.strUsed + _; omega)
      · have hlen : (e.2.val ++ [nul]).length = e.2.val.length + 1 := by
          rw [List.length_append, List.length_singleton]
        exact hstrings _ _ (hkeep _ _ hs'.valueText (by omega)) (by show _ ≤ sb.strUsed + _; omega)
    · obtain ⟨hlt, hget⟩ := List.getElem?_eq_some_iff.mp he
      rw [List.length_append, List.length_singleton] at hlt
      obtain rfl : j = table.length := by omega
      rw [List.getElem?_concat_length, Option.some_inj] at he
      subst he
      rw [← h.entUsed]
      have hlen : (key.val ++ [nul]).length = key.val.length + 1 := by
        rw [List.length_append, List.length_singleton]
      refine ⟨sb.strUsed, sb.strUsed + (key.val.length + 1), hentry, ?_, Nat.le_refl _, ?_, hvalue⟩
      · show sb.strUsed + key.val.length + 1
          ≤ sb.strUsed + (key.val.length + 1) + (value.val.length + 1)
        omega
      · have hend : sb.strUsed + (key.val ++ [nul]).length ≤ sb.strUsed + (key.val.length + 1) := by
          omega
        exact hstrings _ _ hkey hend

/-- With a slot for the key, adding works, or the program is stopped for the size. -/
theorem vadd_room (h : Holds sb table) (junk : ℕ → Char) (key value : CStr)
    (hroom : key ∈ table.map Prod.fst ∨ table.length < strbEntries) :
    (∃ sb', strbVadd junk key.val value.val sb = .ok sb' ∧ Holds sb' (put key value table)) ∨
      strbVadd junk key.val value.val sb = .error .fatal := by
  rcases vadd_start h junk key.val value.val with hfatal | ⟨sb', hsb', hfits, hvadd⟩
  · exact Or.inr hfatal
  · left
    rw [hvadd]
    cases hslot : slotOf key table with
    | some i =>
      obtain ⟨-, v, hv⟩ := put_of_slot value hslot
      obtain ⟨keyOff, valueOff, hfor, hs⟩ := slotFor_old hsb' junk hslot hv
      rw [hfor]
      exact replace_value hsb' hslot hv hs (by omega)
    | none =>
      rw [slotFor_new hsb' junk hslot]
      obtain ⟨sb'', hadd, hholds, -, -⟩ :=
        add_entry hsb' junk value hslot (hroom.resolve_left (slotOf_eq_none.mp hslot)) hfits
      exact ⟨sb'', hadd, hholds⟩

/-- With no slot left, the entry of a new key is written behind the block. -/
theorem slot_missing (h : Holds sb table) (junk : ℕ → Char) {key value : List Char}
    (hfull : ¬ table.length < strbEntries)
    (hfits : sb.strUsed + (key.length + 1 + (value.length + 1)) ≤ sb.strSize) :
    (newEntry junk key sb >>= fun r => putValue r.1 r.2.1 value r.2.2) = .error .undefined := by
  obtain ⟨mem, hentry, hmem, -⟩ := newEntry_spec h junk key (by omega)
  have hlen : (value ++ [nul]).length = value.length + 1 := by
    rw [List.length_append, List.length_singleton]
  have hlength := h.length
  have hused := h.entUsed
  obtain ⟨mem₁, hwrite⟩ := write_of_le mem (value ++ [nul]) (sb.strUsed + (key.length + 1)) (by omega)
  have hmem₁ := length_write hwrite
  rw [hentry]
  show (inside (write mem (sb.strUsed + (key.length + 1)) (value ++ [nul])) >>= fun mem => _) = _
  rw [hwrite]
  show (inside (write mem₁ (sb.strSize + sb.entUsed * strbentSize) _) >>= fun mem => _) = _
  rw [write, if_neg]
  · rfl
  · rw [length_entryBytes]
    simp only [strbEntries, strbentSize] at hfull hlength ⊢
    omega

/-- With no slot left for the key, adding writes behind the block, or the program is stopped
for the size. -/
theorem vadd_full (h : Holds sb table) (junk : ℕ → Char) (key value : CStr)
    (hnew : key ∉ table.map Prod.fst) (hfull : ¬ table.length < strbEntries) :
    strbVadd junk key.val value.val sb = .error .undefined ∨
      strbVadd junk key.val value.val sb = .error .fatal := by
  rcases vadd_start h junk key.val value.val with hfatal | ⟨sb', hsb', hfits, hvadd⟩
  · exact Or.inr hfatal
  · left
    rw [hvadd, slotFor_new hsb' junk (slotOf_eq_none.mpr hnew)]
    exact slot_missing hsb' junk hfull hfits

/-- While there is room for the strings, nothing is moved. -/
theorem vadd_fits (h : Holds sb table) (junk : ℕ → Char) {key value : CStr}
    (hnew : slotOf key table = none) (hshort : value.val.length + 1 ≤ intMax)
    (hfits : sb.strUsed + (key.val.length + 1 + (value.val.length + 1)) ≤ sb.strSize) :
    strbVadd junk key.val value.val sb
      = newEntry junk key.val sb >>= fun r => putValue r.1 r.2.1 value.val r.2.2 := by
  rw [strbVadd, if_neg (Nat.not_lt.mpr hshort), growStr, if_neg (by omega)]
  show (moveEntries junk sb.strSize sb >>= fun sb => _) = _
  rw [moveEntries, if_pos rfl]
  show (slotFor junk key.val sb >>= fun r => _) = _
  rw [slotFor_new h junk hnew]

end Adding

/-! ## Sequences of calls -/

/-- A block that was just cleared. -/
def cleared : Strb where
  entUsed := 0
  entMax := strbEntries
  strUsed := 0
  strSize := strbBlock
  mem := List.replicate (strbBlock + strbEntries * strbentSize) nul

theorem strbClear_eq (junk : ℕ → Char) (sb : Strb) : strbClear junk sb = .ok cleared := by
  unfold strbClear
  dsimp only [Strb.entSize]
  rw [write_all (by rw [List.length_replicate, length_resize]), cleared]
  rfl

theorem strbCreate_eq (junk : ℕ → Char) : strbCreate junk = .ok cleared := strbClear_eq junk _

theorem holds_cleared : Holds cleared [] where
  entMax := rfl
  entUsed := rfl
  fits := by decide
  strUsed := by decide
  least := Nat.le_refl _
  most := by decide
  length := List.length_replicate
  slots := by simp

/-- The block stands for a table of what was added. -/
def Sound (s : Store) : Prop := ∃ table, Holds s.sb table ∧ Tabled s.added table

theorem sound_start {junk : ℕ → Char} {s : Store} (hsb : strbCreate junk = .ok s.sb)
    (hadded : s.added = []) : Sound s := by
  refine ⟨[], ?_, ?_⟩
  · rw [strbCreate_eq] at hsb
    rw [← Except.ok.inj hsb]
    exact holds_cleared
  · rw [hadded]
    exact tabled_nil

/-- With room for it, a call goes well, or stops the program for the size. -/
theorem call_room {s : Store} (h : Sound s) {a : Op} (hroom : Room s a) :
    (∃ sb, call a s.sb = .ok sb ∧ Sound ⟨sb, record a s.added⟩) ∨ call a s.sb = .error .fatal := by
  cases a with
  | create junk =>
    left
    rw [call, strbCreate_eq]
    exact ⟨cleared, rfl, [], holds_cleared, tabled_nil⟩
  | clear junk =>
    left
    rw [call, strbClear_eq]
    exact ⟨cleared, rfl, [], holds_cleared, tabled_nil⟩
  | add junk key value =>
    obtain ⟨table, hholds, htabled⟩ := h
    have hslot : key ∈ table.map Prod.fst ∨ table.length < strbEntries := by
      rw [htabled.keys, htabled.length, ← List.mem_dedup]
      exact hroom
    rcases vadd_room hholds junk key value hslot with ⟨sb, hvadd, hsb⟩ | hfatal
    · exact Or.inl ⟨sb, hvadd, put key value table, hsb, htabled.put key value⟩
    · exact Or.inr hfatal

/-- Without room for it, a call writes behind the block, or stops the program for the size. -/
theorem call_full {s : Store} (h : Sound s) {a : Op} (hfull : ¬ Room s a) :
    call a s.sb = .error .undefined ∨ call a s.sb = .error .fatal := by
  cases a with
  | create junk => exact absurd trivial hfull
  | clear junk => exact absurd trivial hfull
  | add junk key value =>
    obtain ⟨table, hholds, htabled⟩ := h
    obtain ⟨hnew, hmany⟩ := not_or.mp hfull
    refine vadd_full hholds junk key value ?_ ?_
    · rwa [htabled.keys, ← List.mem_dedup]
    · rwa [htabled.length]

theorem sound_step {s s' : Store} {a : Op} (h : Sound s) (hstep : step s a = some s') : Sound s' := by
  rw [step] at hstep
  by_cases hroom : Room s a
  · rcases call_room h hroom with ⟨sb, hcall, hsound⟩ | hfatal
    · rw [hcall] at hstep
      rw [← Option.some_inj.mp hstep]
      exact hsound
    · rw [hfatal] at hstep
      cases hstep
  · rcases call_full h hroom with hcall | hcall
    · rw [hcall] at hstep
      cases hstep
    · rw [hcall] at hstep
      cases hstep

theorem Sound.answers {s : Store} (h : Sound s) :
    Answers s.sb s.added ∧ Answers s.sb.copied s.added ∧ Within s.sb := by
  obtain ⟨table, hholds, htabled⟩ := h
  have hanswers : Answers s.sb s.added := by
    intro key
    rw [strbFind_eq hholds, htabled.look]
  refine ⟨hanswers, ?_, hholds.within⟩
  rw [hholds.copied]
  exact hanswers

/-- After any sequence of calls, the block and a copy of it answer every lookup with the value
most recently added, and everything lies inside the block. The next call does not leave the
block exactly when there is a slot left for what it adds; otherwise it does not come back. -/
theorem store_refines {junk : ℕ → Char} {s₀ s : Store} (hcreate : strbCreate junk = .ok s₀.sb)
    (hadded : s₀.added = []) (h : Lib.Runs.Reach step Lib.Runs.anyStep s₀ s) :
    Answers s.sb s.added ∧ Answers s.sb.copied s.added ∧ Within s.sb ∧
      ∀ a, (Room s a → call a s.sb ≠ .error .undefined) ∧
        (¬ Room s a → ¬ ∃ sb, call a s.sb = .ok sb) := by
  have hsound : Sound s := h.invariant (sound_start hcreate hadded)
    fun _ _ _ hs _ hstep => sound_step hs hstep
  obtain ⟨hanswers, hcopied, hwithin⟩ := hsound.answers
  refine ⟨hanswers, hcopied, hwithin, fun a => ⟨fun hroom => ?_, fun hfull => ?_⟩⟩
  · rcases call_room hsound hroom with ⟨sb, hcall, -⟩ | hcall
    · rw [hcall]
      exact nofun
    · rw [hcall]
      exact nofun
  · rintro ⟨sb, hok⟩
    rcases call_full hsound hfull with hcall | hcall
    · cases hcall.symm.trans hok
    · cases hcall.symm.trans hok

/-! ## The 65th key -/

/-- Keys of one character. -/
def oneChar (n : Fin 65) : CStr := ⟨[Char.ofNat (n + 1)], by revert n; decide⟩

theorem toNat_oneChar (n : Fin 65) : (Char.ofNat (n + 1)).toNat = n + 1 := by
  -- no surrogate is that small
  have hvalid : Nat.isValidChar (n + 1) := by
    left
    omega
  rw [Char.ofNat, dif_pos hvalid]
  rfl

theorem oneChar_injective (m n : Fin 65) (h : oneChar m = oneChar n) : m = n := by
  have hchar : Char.ofNat (m + 1) = Char.ofNat (n + 1) :=
    List.singleton_inj.mp (congrArg Subtype.val h)
  apply Fin.ext
  have hnat := congrArg Char.toNat hchar
  rw [toNat_oneChar, toNat_oneChar] at hnat
  omega

/-- The empty string. -/
def emptyText : CStr := ⟨[], by simp⟩

/-- What the heap holds does not matter. -/
def noJunk (_ : ℕ) : Char := nul

/-- A new block. -/
def fresh : Store := ⟨cleared, []⟩

/-- A block with the first `n` keys in it, each with an empty value. -/
structure Filled (n : ℕ) (s : Store) (table : Table) : Prop where
  reach : Lib.Runs.Reach step Lib.Runs.anyStep fresh s
  holds : Holds s.sb table
  tabled : Tabled s.added table
  length : table.length = n
  keys : ∀ k ∈ table.map Prod.fst, ∃ m : Fin 65, (m : ℕ) < n ∧ k = oneChar m
  strSize : s.sb.strSize = strbBlock
  strUsed : s.sb.strUsed = 3 * n

theorem Filled.slot {n : ℕ} {s : Store} {table : Table} (h : Filled n s table) (hn : n < 65) :
    slotOf (oneChar ⟨n, hn⟩) table = none := by
  apply slotOf_eq_none.mpr
  intro hmem
  obtain ⟨m, hm, heq⟩ := h.keys _ hmem
  have hmn := oneChar_injective _ _ heq
  rw [← hmn] at hm
  exact Nat.lt_irrefl n hm

theorem filled (n : ℕ) (hn : n ≤ strbEntries) : ∃ s table, Filled n s table := by
  induction n with
  | zero =>
    exact ⟨fresh, [], .refl, holds_cleared, tabled_nil, rfl, by simp, rfl, rfl⟩
  | succ n ih =>
    obtain ⟨s, table, h⟩ := ih (by omega)
    have hlt : n < 65 := by
      simp only [strbEntries] at hn
      omega
    have hfits : s.sb.strUsed + ((oneChar ⟨n, hlt⟩).val.length + 1 + (emptyText.val.length + 1))
        ≤ s.sb.strSize := by
      rw [h.strUsed, h.strSize]
      simp only [strbEntries, strbBlock, oneChar, emptyText, List.length_singleton, List.length_nil]
        at hn ⊢
      omega
    have hslot := h.slot hlt
    obtain ⟨sb, hadd, hholds, hsize, hused⟩ := add_entry h.holds noJunk emptyText hslot
      (by rw [h.length]; exact hn) hfits
    have hcall : step s (.add noJunk (oneChar ⟨n, hlt⟩) emptyText)
        = some ⟨sb, s.added ++ [(oneChar ⟨n, hlt⟩, emptyText)]⟩ := by
      rw [step, call, vadd_fits h.holds noJunk hslot (by decide) hfits, hadd]
      rfl
    refine ⟨_, _, h.reach.tail trivial hcall, hholds, h.tabled.put _ _, ?_, ?_, hsize.trans h.strSize, ?_⟩
    · rw [put_of_no_slot hslot, List.length_append, h.length]
      rfl
    · intro k hk
      rcases (mem_keys_put _ _ _ _).mp hk with rfl | hk
      · exact ⟨⟨n, hlt⟩, Nat.lt_succ_self n, rfl⟩
      · obtain ⟨m, hm, rfl⟩ := h.keys k hk
        exact ⟨m, Nat.lt_succ_of_lt hm, rfl⟩
    · rw [hused, h.strUsed]
      simp only [oneChar, emptyText, List.length_singleton, List.length_nil]
      omega

theorem store_refines_full :
    ∃ s : Store, (keysOf s.added).length = 64 ∧ Answers s.sb s.added ∧ Answers s.sb.copied s.added ∧
      Within s.sb := by
  obtain ⟨s, table, h⟩ := filled 64 (Nat.le_refl _)
  obtain ⟨hanswers, hcopied, hwithin, -⟩ := store_refines (strbCreate_eq noJunk) rfl h.reach
  exact ⟨s, h.tabled.length.symm.trans h.length, hanswers, hcopied, hwithin⟩

/-- The entry of the 65th key is written behind the block. -/
theorem slot_overrun :
    ∃ s, Lib.Runs.Reach step Lib.Runs.anyStep fresh s ∧
      ∃ key value, call (.add noJunk key value) s.sb = .error .undefined := by
  obtain ⟨s, table, h⟩ := filled 64 (Nat.le_refl _)
  have hfits : s.sb.strUsed + ((oneChar 64).val.length + 1 + (emptyText.val.length + 1))
      ≤ s.sb.strSize := by
    rw [h.strUsed, h.strSize]
    decide
  have hslot : slotOf (oneChar 64) table = none := h.slot (by decide)
  refine ⟨s, h.reach, oneChar 64, emptyText, ?_⟩
  rw [call, vadd_fits h.holds noJunk hslot (by decide) hfits]
  exact slot_missing h.holds noJunk (by rw [h.length]; decide) hfits

end Fdm.Tags
