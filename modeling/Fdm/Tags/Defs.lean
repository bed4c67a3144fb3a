import Fdm.Lib.Memory
import Fdm.Lib.Runs
import Mathlib.Data.List.Dedup

/-!
# String blocks

`strb.c`: keys and values in one block of memory, which holds a header, the strings, and
behind them the entries, each with the offsets of its key and of its value. A block is sent to
other processes as it is.
-/

namespace Fdm.Tags

open Lib.Memory

/-! ## Sizes -/

/-- `STRBOFFSET`: the header, rounded up. -/
def strbOffset : ℕ := 64

/-- `STRBENTRIES`. -/
def strbEntries : ℕ := 64

/-- `STRBBLOCK`. -/
def strbBlock : ℕ := 1024

/-- `sizeof (struct strbent)`. -/
def strbentSize : ℕ := 16

/-- `SIZE_MAX`. -/
def sizeMax : ℕ := 2 ^ 64 - 1

/-- `UINT_MAX`. -/
def uintMax : ℕ := 2 ^ 32 - 1

/-- `INT_MAX`. -/
def intMax : ℕ := 2 ^ 31 - 1

/-- The byte at the end of a string. -/
def nul : Char := '\x00'

/-- A C string. -/
abbrev CStr : Type := { s : List Char // nul ∉ s }

/-- `struct strb`; `mem` are the bytes of the block from `STRB_BASE` on. -/
structure Strb where
  entUsed : ℕ
  entMax : ℕ
  strUsed : ℕ
  strSize : ℕ
  mem : List Char
deriving DecidableEq, Repr

/-- How a call can stop the program: by `fatalx`, or with a read or write outside of the
block. -/
inductive Stop
  | fatal
  | undefined
deriving DecidableEq, Repr

namespace Strb

/-- `STRB_ENTSIZE`. -/
def entSize (sb : Strb) : ℕ := sb.entMax * strbentSize

/-- `STRB_SIZE`. -/
def size (sb : Strb) : ℕ := strbOffset + sb.strSize + sb.entSize

/-- The offset of `STRB_ENTRY`. -/
def entry (sb : Strb) (n : ℕ) : ℕ := sb.strSize + n * strbentSize

/-- The block as another process gets it: the first `STRB_SIZE` bytes. -/
def copied (sb : Strb) : Strb := { sb with mem := sb.mem.take (sb.size - strbOffset) }

end Strb

/-- A read or write of memory. -/
def inside {β : Type} : Option β → Except Stop β
  | none => .error .undefined
  | some b => .ok b

/-! ## Making a block -/

/-- `strb_clear`. -/
def strbClear (junk : ℕ → Char) (sb : Strb) : Except Stop Strb :=
  let sb := { sb with entUsed := 0, entMax := strbEntries, strUsed := 0, strSize := strbBlock }
  let n := sb.strSize + sb.entSize
  (inside (write (resize junk n sb.mem) 0 (List.replicate n nul))).map fun mem =>
    { sb with mem := mem }

/-- `strb_create`. -/
def strbCreate (junk : ℕ → Char) : Except Stop Strb := strbClear junk ⟨0, 0, 0, 0, []⟩

/-! ## Looking up -/

/-- The bytes of a `struct strbent`. -/
def entryBytes (key value : ℕ) : List Char := bytesOf 8 key ++ bytesOf 8 value

/-- The entry in a slot: the offsets of its key and of its value. -/
def readEntry (sb : Strb) (n : ℕ) : Option (ℕ × ℕ) :=
  (read sb.mem (sb.entry n) strbentSize).map fun s => (valueOf (s.take 8), valueOf (s.drop 8))

/-- The loop of `strb_address`, with so many entries left from `i` on. -/
def addressFrom (sb : Strb) (key : List Char) : ℕ → ℕ → Option (Option ℕ)
  | 0, _ => some none
  | n + 1, i =>
    (readEntry sb i).bind fun sbe =>
      (strAt nul sb.mem sbe.1).bind fun s =>
        if key = s then some (some i) else addressFrom sb key n (i + 1)

/-- `strb_address`: the slot of a key; `none` for a read outside of the block. -/
def strbAddress (sb : Strb) (key : List Char) : Option (Option ℕ) :=
  addressFrom sb key sb.entUsed 0

/-- `strb_find`, and the value its caller reads. -/
def strbFind (sb : Strb) (key : List Char) : Option (Option (List Char)) :=
  (strbAddress sb key).bind fun
    | none => some none
    | some i => (readEntry sb i).bind fun sbe => (strAt nul sb.mem sbe.2).map some

/-! ## Adding -/

/-- The loop that doubles `str_size` until there is room; the first argument bounds its
passes. -/
def growStr (sb : Strb) (need : ℕ) : ℕ → ℕ → Except Stop ℕ
  | 0, _ => .error .undefined
  | fuel + 1, strSize =>
    if strSize - sb.strUsed < need then
      if sizeMax / 2 < strbOffset + strSize + sb.entSize then .error .fatal
      else growStr sb need fuel (strSize * 2)
    else .ok strSize

/-- Make room for more strings: the entries are moved behind it. -/
def moveEntries (junk : ℕ → Char) (strSize : ℕ) (sb : Strb) : Except Stop Strb :=
  if strSize = sb.strSize then .ok sb
  else do
    let mem := resize junk (strSize + sb.entSize) sb.mem
    let mem ← inside (move mem strSize sb.strSize sb.entSize)
    let mem ← inside (write mem sb.strSize (List.replicate (strSize - sb.strSize) nul))
    .ok { sb with strSize := strSize, mem := mem }

/-- Make room for more entries. -/
def growEntries (junk : ℕ → Char) (sb : Strb) : Except Stop Strb :=
  if uintMax / 2 < sb.entMax then .error .fatal
  else
    let sb' := { sb with entMax := sb.entMax * 2 }
    if sizeMax < sb'.size then .error .fatal
    else
      let mem := resize junk (sb'.strSize + sb'.entSize) sb.mem
      (inside (write mem (sb'.entry sb.entMax) (List.replicate (sb'.entSize / 2) nul))).map
        fun mem => { sb' with mem := mem }

/-- The part of `strb_vadd` for a key that is new: the slot of its entry, and the offset of the
key. -/
def newEntry (junk : ℕ → Char) (key : List Char) (sb : Strb) : Except Stop (ℕ × ℕ × Strb) := do
  -- one entry too late: with `ent_used` equal to `ent_max` there is no slot left already
  let sb ← if sb.entMax < sb.entUsed then growEntries junk sb else .ok sb
  let mem ← inside (write sb.mem sb.strUsed (key ++ [nul]))
  .ok (sb.entUsed, sb.strUsed,
    { sb with entUsed := sb.entUsed + 1, strUsed := sb.strUsed + (key.length + 1), mem := mem })

/-- The slot of a key, old or new. -/
def slotFor (junk : ℕ → Char) (key : List Char) (sb : Strb) : Except Stop (ℕ × ℕ × Strb) := do
  match ← inside (strbAddress sb key) with
  | none => newEntry junk key sb
  | some i =>
    let sbe ← inside (readEntry sb i)
    .ok (i, sbe.1, sb)

/-- The rest of `strb_vadd`: the value, and the entry that refers to it. -/
def putValue (slot keyOff : ℕ) (value : List Char) (sb : Strb) : Except Stop Strb := do
  let mem ← inside (write sb.mem sb.strUsed (value ++ [nul]))
  let mem ← inside (write mem (sb.entry slot) (entryBytes keyOff sb.strUsed))
  .ok { sb with strUsed := sb.strUsed + (value.length + 1), mem := mem }

/-- `strb_vadd`, for the text that the format makes of its arguments. -/
def strbVadd (junk : ℕ → Char) (key value : List Char) (sb : Strb) : Except Stop Strb :=
  if intMax < value.length + 1 then .error .fatal
  else do
    let strSize ← growStr sb (key.length + 1 + (value.length + 1)) 64 sb.strSize
    let sb ← moveEntries junk strSize sb
    let (slot, keyOff, sb) ← slotFor junk key sb
    putValue slot keyOff value sb

/-! ## Sequences of calls -/

/-- A call, with what the heap holds where it makes the block larger. -/
inductive Op
  | create (junk : ℕ → Char)
  | clear (junk : ℕ → Char)
  | add (junk : ℕ → Char) (key value : CStr)

/-- A block, and what was added to it since it was created or cleared. -/
structure Store where
  sb : Strb
  added : List (CStr × CStr) := []

/-- The effect of a call on the block. -/
def call : Op → Strb → Except Stop Strb
  | .create junk, _ => strbCreate junk
  | .clear junk, sb => strbClear junk sb
  | .add junk key value, sb => strbVadd junk key.val value.val sb

/-- What has been added behind a call. -/
def record : Op → List (CStr × CStr) → List (CStr × CStr)
  | .add _ key value, added => added ++ [(key, value)]
  | _, _ => []

/-- One call. -/
def step (s : Store) (a : Op) : Option Store :=
  match call a s.sb with
  | .ok sb => some ⟨sb, record a s.added⟩
  | .error _ => none

/-! ## What a block is for -/

/-- The value most recently added for a key. -/
def latest (key : CStr) : List (CStr × CStr) → Option CStr
  | [] => none
  | (k, v) :: added => (latest key added).or (if k = key then some v else none)

/-- The keys that were added. -/
def keysOf (added : List (CStr × CStr)) : List CStr := (added.map Prod.fst).dedup

/-- Every lookup in the block gives the value most recently added. -/
def Answers (sb : Strb) (added : List (CStr × CStr)) : Prop :=
  ∀ key : CStr, strbFind sb key.val = some ((latest key added).map Subtype.val)

/-- The counters are in bounds, and all slots and strings lie inside the block. -/
structure Within (sb : Strb) : Prop where
  strings : sb.strUsed ≤ sb.strSize
  entries : sb.entUsed ≤ sb.entMax
  length : strbOffset + sb.mem.length = sb.size
  slots : ∀ i < sb.entMax, sb.entry i + strbentSize ≤ sb.mem.length
  texts : ∀ i < sb.entUsed, ∃ keyOff valueOff key value, readEntry sb i = some (keyOff, valueOff) ∧
    strAt nul sb.mem keyOff = some key ∧ keyOff + key.length + 1 ≤ sb.strUsed ∧
    strAt nul sb.mem valueOff = some value ∧ valueOff + value.length + 1 ≤ sb.strUsed

/-- There is a slot left for what a call adds: its key is there already, or there are fewer
than 64 keys. -/
def Room (s : Store) : Op → Prop
  | .add _ key _ => key ∈ keysOf s.added ∨ (keysOf s.added).length < strbEntries
  | _ => True

end Fdm.Tags
