import Fdm.Tags.Defs

/-!
# A string block refines a table

A block stands for a table of keys and values, in the order in which the keys were added.

* `Tabled`: the table and the sequence of what was added;
* `Holds`: the block and the table;
* `strbAddress_eq`, `strbFind_eq`: lookups in the block are lookups in the table;
* `vadd_room`, `vadd_full`: what adding does to the block.
-/

namespace Fdm.Tags

open Lib.Memory

abbrev Table := List (CStr × CStr)

/-! ## The table -/

/-- Add to a table, or replace the value of the key. -/
def put (key value : CStr) : Table → Table
  | [] => [(key, value)]
  | (k, v) :: table => if k = key then (key, value) :: table else (k, v) :: put key value table

/-- Look a key up in a table. -/
def look (key : CStr) : Table → Option CStr
  | [] => none
  | (k, v) :: table => if k = key then some v else look key table

/-- The place of a key in a table. -/
def slotOf (key : CStr) (table : Table) : Option ℕ := table.findIdx? fun e => e.1 = key

/-- A key that is added has its value, and the others keep theirs. -/
theorem look_put (key value k : CStr) (table : Table) :
    look k (put key value table) = if key = k then some value else look k table := by
  induction table with
  | nil => rfl
  | cons e table ih =>
    obtain ⟨k', v'⟩ := e
    rw [put]
    by_cases h : k' = key
    · rw [if_pos h, look, look, h]
      by_cases hk : key = k
      · rw [if_pos hk, if_pos hk]
      · rw [if_neg hk, if_neg hk, if_neg hk]
    · rw [if_neg h, look, look, ih]
      by_cases hk : k' = k
      · have hne : key ≠ k := fun heq => h (hk.trans heq.symm)
        rw [if_pos hk, if_neg hne, if_pos hk]
      · rw [if_neg hk, if_neg hk]

/-- The keys of a table are those that were added. -/
theorem mem_keys_put (key value k : CStr) (table : Table) :
    k ∈ (put key value table).map Prod.fst ↔ k = key ∨ k ∈ table.map Prod.fst := by
  induction table with
  | nil => simp [put]
  | cons e table ih =>
    obtain ⟨k', v'⟩ := e
    rw [put]
    by_cases h : k' = key
    · rw [if_pos h]
      simp [h]
    · rw [if_neg h]
      simp only [List.map_cons, List.mem_cons, ih]
      exact or_left_comm

/-- No key gets a second slot. -/
theorem nodup_put (key value : CStr) {table : Table} (h : (table.map Prod.fst).Nodup) :
    ((put key value table).map Prod.fst).Nodup := by
  induction table with
  | nil => simp [put]
  | cons e table ih =>
    obtain ⟨k', v'⟩ := e
    rw [List.map_cons, List.nodup_cons] at h
    rw [put]
    by_cases hk : k' = key
    · rw [if_pos hk, List.map_cons, List.nodup_cons, ← hk]
      exact h
    · rw [if_neg hk, List.map_cons, List.nodup_cons, mem_keys_put]
      refine ⟨?_, ih h.2⟩
      rintro (heq | hmem)
      · exact hk heq
      · exact h.1 hmem

/-- A key that has a slot keeps it. -/
theorem put_of_slot {key : CStr} (value : CStr) {table : Table} {i : ℕ} (h : slotOf key table = some i) :
    put key value table = table.set i (key, value) ∧ ∃ v, table[i]? = some (key, v) := by
  induction table generalizing i with
  | nil => cases h
  | cons e table ih =>
    obtain ⟨k', v'⟩ := e
    rw [slotOf, List.findIdx?_cons] at h
    rw [put]
    by_cases hk : k' = key
    · rw [if_pos (decide_eq_true hk)] at h
      obtain rfl : 0 = i := Option.some_inj.mp h
      rw [if_pos hk, hk]
      exact ⟨rfl, v', rfl⟩
    · rw [if_neg (by simpa using hk)] at h
      obtain ⟨j, hj, rfl⟩ := Option.map_eq_some_iff.mp h
      rw [if_neg hk, (ih hj).1]
      exact ⟨rfl, (ih hj).2⟩

/-- Another key gets the next slot. -/
theorem put_of_no_slot {key value : CStr} {table : Table} (h : slotOf key table = none) :
    put key value table = table ++ [(key, value)] := by
  induction table with
  | nil => rfl
  | cons e table ih =>
    obtain ⟨k', v'⟩ := e
    rw [slotOf, List.findIdx?_eq_none_iff] at h
    have hk : k' ≠ key := by simpa using h (k', v') List.mem_cons_self
    have hrest : slotOf key table = none := by
      rw [slotOf, List.findIdx?_eq_none_iff]
      exact fun x hx => h x (List.mem_cons_of_mem _ hx)
    rw [put, if_neg hk, ih hrest, List.cons_append]

/-- Only a key that was not added has no slot. -/
theorem slotOf_eq_none {key : CStr} {table : Table} :
    slotOf key table = none ↔ key ∉ table.map Prod.fst := by
  rw [slotOf, List.findIdx?_eq_none_iff]
  simp only [decide_eq_false_iff_not, List.mem_map, not_exists, not_and]

theorem look_of_slot {key : CStr} {table : Table} :
    look key table = (slotOf key table).bind fun i => (table[i]?).map Prod.snd := by
  induction table with
  | nil => rfl
  | cons e table ih =>
    obtain ⟨k', v'⟩ := e
    rw [look, slotOf, List.findIdx?_cons]
    by_cases hk : k' = key
    · rw [if_pos hk, if_pos (decide_eq_true hk)]
      rfl
    · rw [if_neg hk, if_neg (by simpa using hk), ih, slotOf]
      cases table.findIdx? fun e => e.1 = key with
      | none => rfl
      | some i => rfl

/-! ## The table and what was added -/

/-- The table of what was added. -/
structure Tabled (added : List (CStr × CStr)) (table : Table) : Prop where
  nodup : (table.map Prod.fst).Nodup
  keys : ∀ key, key ∈ table.map Prod.fst ↔ key ∈ added.map Prod.fst
  look : ∀ key, look key table = latest key added

/-- What counts is what was added last. -/
theorem latest_append (key k v : CStr) (added : List (CStr × CStr)) :
    latest key (added ++ [(k, v)]) = if k = key then some v else latest key added := by
  induction added with
  | nil => simp [latest]
  | cons e added ih =>
    rw [List.cons_append, latest, ih, latest]
    by_cases h : k = key
    · rw [if_pos h, if_pos h, Option.some_or]
    · rw [if_neg h, if_neg h]

theorem tabled_nil : Tabled [] [] := ⟨List.nodup_nil, fun _ => Iff.rfl, fun _ => rfl⟩

/-- Adding a tag keeps the table in step with what was added. -/
theorem Tabled.put {added : List (CStr × CStr)} {table : Table} (h : Tabled added table)
    (key value : CStr) : Tabled (added ++ [(key, value)]) (put key value table) where
  nodup := nodup_put key value h.nodup
  keys k := by
    rw [mem_keys_put, h.keys, List.map_append, List.mem_append, List.map_singleton,
      List.mem_singleton]
    exact or_comm
  look k := by
    rw [look_put, latest_append, h.look]

/-- There are as many slots as keys. -/
theorem Tabled.length {added : List (CStr × CStr)} {table : Table} (h : Tabled added table) :
    table.length = (keysOf added).length := by
  have hperm : (table.map Prod.fst).Perm (keysOf added) := by
    apply (List.perm_ext_iff_of_nodup h.nodup (List.nodup_dedup _)).mpr
    intro key
    rw [h.keys, List.mem_dedup]
  rw [← hperm.length_eq, List.length_map]

/-! ## The block and the table -/

/-- An entry of the block, with its key and its value. -/
structure Slot (sb : Strb) (i keyOff valueOff : ℕ) (key value : List Char) : Prop where
  entry : At sb.mem (sb.entry i) (entryBytes keyOff valueOff)
  keyEnd : keyOff + key.length + 1 ≤ sb.strUsed
  valueEnd : valueOff + value.length + 1 ≤ sb.strUsed
  keyText : At sb.mem keyOff (key ++ [nul])
  valueText : At sb.mem valueOff (value ++ [nul])

/-- The block holds the table. -/
structure Holds (sb : Strb) (table : Table) : Prop where
  entMax : sb.entMax = strbEntries
  entUsed : sb.entUsed = table.length
  fits : table.length ≤ strbEntries
  strUsed : sb.strUsed ≤ sb.strSize
  least : strbBlock ≤ sb.strSize
  most : sb.strSize < 2 ^ 64
  length : sb.mem.length = sb.strSize + strbEntries * strbentSize
  slots : ∀ i e, table[i]? = some e → ∃ keyOff valueOff, Slot sb i keyOff valueOff e.1.val e.2.val

theorem length_entryBytes (key value : ℕ) : (entryBytes key value).length = strbentSize := by
  rw [entryBytes, List.length_append, length_bytesOf, length_bytesOf]
  rfl

section Lookup

variable {sb : Strb} {table : Table}

/-- An entry is inside the block. -/
theorem Holds.entry_le (h : Holds sb table) {i : ℕ} (hi : i < strbEntries) :
    sb.entry i + strbentSize ≤ sb.mem.length := by
  rw [Strb.entry, h.length]
  simp only [strbEntries, strbentSize] at hi ⊢
  omega

/-- An entry that is in use can be read. -/
theorem Slot.readEntry (hsb : Holds sb table) {i keyOff valueOff : ℕ} {key value : List Char}
    (hi : i < table.length) (h : Slot sb i keyOff valueOff key value) :
    readEntry sb i = some (keyOff, valueOff) := by
  have hused := hsb.strUsed
  have hmost := hsb.most
  have hkey := h.keyEnd
  have hvalue := h.valueEnd
  have hle := hsb.entry_le (Nat.lt_of_lt_of_le hi hsb.fits)
  have hread := h.entry.read (by rw [length_entryBytes]; exact hle)
  rw [length_entryBytes] at hread
  have htake : (entryBytes keyOff valueOff).take 8 = bytesOf 8 keyOff := by
    rw [entryBytes, List.take_append_of_le_length (by simp), List.take_of_length_le (by simp)]
  have hdrop : (entryBytes keyOff valueOff).drop 8 = bytesOf 8 valueOff := by
    rw [entryBytes, List.drop_append_of_le_length (by simp), List.drop_of_length_le (by simp),
      List.nil_append]
  have hpow : (256 : ℕ) ^ 8 = 2 ^ 64 := by decide
  rw [Tags.readEntry, hread, Option.map_some, htake, hdrop, valueOf_bytesOf (by omega),
    valueOf_bytesOf (by omega)]

/-- The search of `strb_address` from a slot on finds what the table has from there on; the
induction is on the entries that are left. -/
theorem addressFrom_eq (h : Holds sb table) (key : CStr) (n i : ℕ) (hn : i + n = table.length) :
    addressFrom sb key.val n i
      = some (((table.drop i).findIdx? fun e => e.1 = key).map (· + i)) := by
  induction n generalizing i with
  | zero =>
    rw [addressFrom, List.drop_of_length_le (by omega)]
    rfl
  | succ n ih =>
    have hi : i < table.length := by omega
    obtain ⟨keyOff, valueOff, hslot⟩ := h.slots i table[i] (List.getElem?_eq_getElem hi)
    rw [addressFrom, hslot.readEntry h hi, Option.bind_some,
      hslot.keyText.strAt table[i].1.property, Option.bind_some, List.drop_eq_getElem_cons hi,
      List.findIdx?_cons]
    by_cases hkey : table[i].1 = key
    · rw [if_pos (congrArg Subtype.val hkey.symm), if_pos (decide_eq_true hkey)]
      simp
    · have hval : key.val ≠ table[i].1.val := fun heq => hkey (Subtype.ext heq.symm)
      rw [if_neg hval, if_neg (by simpa using hkey), ih (i + 1) (by omega)]
      cases (table.drop (i + 1)).findIdx? fun e => e.1 = key with
      | none => rfl
      | some j =>
        simp only [Option.map_some, Option.some_inj]
        omega

/-- `strb_address` finds the slot of a key, without a read outside of the block. -/
theorem strbAddress_eq (h : Holds sb table) (key : CStr) :
    strbAddress sb key.val = some (slotOf key table) := by
  rw [strbAddress, addressFrom_eq h key _ 0 (by rw [h.entUsed]; omega), List.drop_zero, slotOf]
  simp

/-- `strb_find` gives the value that the table has. -/
theorem strbFind_eq (h : Holds sb table) (key : CStr) :
    strbFind sb key.val = some ((look key table).map Subtype.val) := by
  rw [strbFind, strbAddress_eq h, Option.bind_some, look_of_slot]
  cases hslot : slotOf key table with
  | none => rfl
  | some i =>
    obtain ⟨-, v, hv⟩ := put_of_slot key hslot
    obtain ⟨keyOff, valueOff, hs⟩ := h.slots i (key, v) hv
    obtain ⟨hi, -⟩ := List.getElem?_eq_some_iff.mp hv
    dsimp only
    rw [hs.readEntry h hi, Option.bind_some, hs.valueText.strAt v.property, Option.bind_some, hv]
    rfl

/-- A block that holds a table can be read. -/
theorem Holds.within (h : Holds sb table) : Within sb where
  strings := h.strUsed
  entries := by
    rw [h.entUsed, h.entMax]
    exact h.fits
  length := by
    rw [Strb.size, Strb.entSize, h.length, h.entMax]
    omega
  slots i hi := h.entry_le (by rwa [h.entMax] at hi)
  texts i hi := by
    rw [h.entUsed] at hi
    obtain ⟨keyOff, valueOff, hs⟩ := h.slots i table[i] (List.getElem?_eq_getElem hi)
    exact ⟨keyOff, valueOff, _, _, hs.readEntry h hi, hs.keyText.strAt table[i].1.property, hs.keyEnd,
      hs.valueText.strAt table[i].2.property, hs.valueEnd⟩

/-- The bytes that are sent are all bytes of the block. -/
theorem Holds.copied (h : Holds sb table) : sb.copied = sb := by
  have hlen : sb.size - strbOffset = sb.mem.length := by
    have hwithin := h.within.length
    omega
  rw [Strb.copied, hlen, List.take_length]

end Lookup

end Fdm.Tags
