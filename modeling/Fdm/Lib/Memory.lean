import Fdm.Lib.Strchr
import Mathlib.Algebra.Group.Nat.Defs
import Mathlib.Data.List.Basic
import Mathlib.Tactic.SplitIfs

/-!
# Blocks of memory

A block of memory is the list of its bytes. Reading and writing outside of it has no result.

* `At`: some bytes stand in the block at an offset; `At.write`, `At.frame` and `At.resize` say
  what the C library's functions make of that;
* `strAt`: the string at an offset;
* `word`: a number in little-endian bytes.
-/

namespace Lib.Memory

variable {α : Type*}

/-- The bytes `s` stand in the block from `off` on. -/
def At (mem : List α) (off : ℕ) (s : List α) : Prop :=
  ∀ i, i < s.length → mem[off + i]? = s[i]?

/-- `n` bytes from `off` on. -/
def read (mem : List α) (off n : ℕ) : Option (List α) :=
  if off + n ≤ mem.length then some ((mem.drop off).take n) else none

/-- `memcpy` and `memset`: the block with the bytes `s` written to `off`. -/
def write (mem : List α) (off : ℕ) (s : List α) : Option (List α) :=
  if off + s.length ≤ mem.length then some (mem.take off ++ s ++ mem.drop (off + s.length))
  else none

/-- `memmove`. -/
def move (mem : List α) (dst src n : ℕ) : Option (List α) :=
  (read mem src n).bind fun s => write mem dst s

/-- `realloc`: the block with `n` bytes; what the new ones are is anyone's guess. -/
def resize (junk : ℕ → α) (n : ℕ) (mem : List α) : List α :=
  (List.range n).map fun i => (mem[i]?).getD (junk i)

/-- The string at `off`, which ends in front of the first `z`. -/
def strAt [DecidableEq α] (z : α) (mem : List α) (off : ℕ) : Option (List α) :=
  if z ∈ mem.drop off then some ((mem.drop off).takeWhile (· ≠ z)) else none

/-! ## Sizes -/

/-- Writing changes no length. -/
theorem length_write {mem mem' s : List α} {off : ℕ} (h : write mem off s = some mem') :
    mem'.length = mem.length := by
  unfold write at h
  split_ifs at h with hle
  rw [← Option.some_inj.mp h]
  simp only [List.length_append, List.length_take, List.length_drop]
  omega

/-- There is room for what is written. -/
theorem write_of_le (mem s : List α) (off : ℕ) (h : off + s.length ≤ mem.length) :
    ∃ mem', write mem off s = some mem' := by
  rw [write, if_pos h]
  exact ⟨_, rfl⟩

/-- Writing all of it. -/
theorem write_all {mem s : List α} (h : s.length = mem.length) : write mem 0 s = some s := by
  rw [write, if_pos (by omega), List.take_zero, List.nil_append, List.drop_of_length_le (by omega),
    List.append_nil]

@[simp] theorem length_resize (junk : ℕ → α) (n : ℕ) (mem : List α) :
    (resize junk n mem).length = n := by
  rw [resize, List.length_map, List.length_range]

/-! ## Single bytes -/

/-- What a place holds behind a write. -/
theorem getElem?_write {mem mem' s : List α} {off : ℕ} (h : write mem off s = some mem') (i : ℕ) :
    mem'[i]? = if off ≤ i ∧ i < off + s.length then s[i - off]? else mem[i]? := by
  unfold write at h
  split_ifs at h with hle
  rw [← Option.some_inj.mp h]
  have htake : (mem.take off).length = off := by
    rw [List.length_take]
    omega
  by_cases hlow : i < off
  · rw [if_neg (by omega), List.append_assoc, List.getElem?_append_left (by omega),
      List.getElem?_take_of_lt hlow]
  · by_cases hmid : i < off + s.length
    · rw [if_pos (by omega), List.getElem?_append_left (by rw [List.length_append]; omega),
        List.getElem?_append_right (by omega), htake]
    · rw [if_neg (by omega), List.getElem?_append_right (by rw [List.length_append]; omega),
        List.length_append, htake, List.getElem?_drop]
      congr 1
      omega

/-- What was there is still there. -/
theorem getElem?_resize (junk : ℕ → α) {n i : ℕ} {mem : List α} (hn : i < n) (hi : i < mem.length) :
    (resize junk n mem)[i]? = mem[i]? := by
  rw [resize, List.getElem?_map, List.getElem?_range hn, Option.map_some, List.getElem?_eq_getElem hi,
    Option.getD_some]

/-! ## Bytes at an offset -/

/-- What is at a place is inside. -/
theorem At.le_length {mem s : List α} {off : ℕ} (h : At mem off s) (hne : s ≠ []) :
    off + s.length ≤ mem.length := by
  have hpos := List.length_pos_iff.mpr hne
  by_contra hlt
  have hlast := h (s.length - 1) (by omega)
  rw [List.getElem?_eq_none (by omega), List.getElem?_eq_getElem (by omega)] at hlast
  cases hlast

/-- What was written stands there. -/
theorem At.write {mem mem' s : List α} {off : ℕ} (h : write mem off s = some mem') :
    At mem' off s := by
  intro i hi
  rw [getElem?_write h, if_pos (by omega)]
  congr 1
  omega

/-- What stands elsewhere stays. -/
theorem At.frame {mem mem' s t : List α} {off off' : ℕ} (h : At mem off s)
    (hwrite : Memory.write mem off' t = some mem')
    (hdisjoint : off + s.length ≤ off' ∨ off' + t.length ≤ off) : At mem' off s := by
  intro i hi
  rw [getElem?_write hwrite, if_neg (by omega)]
  exact h i hi

/-- It stays there when there is room for it. -/
theorem At.resize {mem s : List α} {off n : ℕ} (h : At mem off s) (hn : off + s.length ≤ n)
    (junk : ℕ → α) : At (resize junk n mem) off s := by
  intro i hi
  have hmem : off + i < mem.length := by
    have hne : s ≠ [] := List.ne_nil_of_length_pos (by omega)
    have hle := h.le_length hne
    omega
  rw [getElem?_resize junk (by omega) hmem]
  exact h i hi

/-- One string behind another. -/
theorem At.append_iff {mem s t : List α} {off : ℕ} :
    At mem off (s ++ t) ↔ At mem off s ∧ At mem (off + s.length) t := by
  constructor
  · intro h
    constructor
    · intro i hi
      rw [h i (by rw [List.length_append]; omega), List.getElem?_append_left hi]
    · intro i hi
      have hall := h (s.length + i) (by rw [List.length_append]; omega)
      rw [List.getElem?_append_right (by omega), Nat.add_sub_cancel_left] at hall
      rw [Nat.add_assoc, hall]
  · rintro ⟨hs, ht⟩ i hi
    rw [List.length_append] at hi
    by_cases hlt : i < s.length
    · rw [List.getElem?_append_left hlt]
      exact hs i hlt
    · rw [List.getElem?_append_right (by omega), ← ht (i - s.length) (by omega)]
      congr 1
      omega

theorem At.take {mem s : List α} {off : ℕ} (h : At mem off s) (n : ℕ) : At mem off (s.take n) := by
  rw [← List.take_append_drop n s, append_iff] at h
  exact h.1

theorem At.drop {mem s : List α} {off n : ℕ} (h : At mem off s) (hn : n ≤ s.length) :
    At mem (off + n) (s.drop n) := by
  rw [← List.take_append_drop n s, append_iff, List.length_take, Nat.min_eq_left hn] at h
  exact h.2

theorem At.drop_eq {mem s : List α} {off : ℕ} (h : At mem off s) :
    (mem.drop off).take s.length = s := by
  apply List.ext_getElem?
  intro i
  by_cases hi : i < s.length
  · rw [List.getElem?_take_of_lt hi, List.getElem?_drop, h i hi]
  · rw [List.getElem?_eq_none (by rw [List.length_take]; omega), List.getElem?_eq_none (by omega)]

/-- What is at a place can be read. -/
theorem At.read {mem s : List α} {off : ℕ} (h : At mem off s) (hle : off + s.length ≤ mem.length) :
    read mem off s.length = some s := by
  rw [Memory.read, if_pos hle, h.drop_eq]

/-- What was read is at that place. -/
theorem at_of_read {mem s : List α} {off n : ℕ} (h : read mem off n = some s) :
    At mem off s ∧ s.length = n := by
  unfold read at h
  split_ifs at h with hle
  rw [← Option.some_inj.mp h]
  refine ⟨fun i hi => ?_, ?_⟩
  · rw [List.length_take] at hi
    rw [List.getElem?_take_of_lt (by omega), List.getElem?_drop]
  · rw [List.length_take, List.length_drop]
    omega

/-- Some bytes of a range are moved with it. -/
theorem At.move {mem mem' s : List α} {dst src n k : ℕ} (h : At mem (src + k) s)
    (hmove : move mem dst src n = some mem') (hk : k + s.length ≤ n) : At mem' (dst + k) s := by
  rw [Memory.move, Option.bind_eq_some_iff] at hmove
  obtain ⟨t, hread, hwrite⟩ := hmove
  obtain ⟨ht, hlen⟩ := at_of_read hread
  intro i hi
  have hthere := At.write hwrite (k + i) (by omega)
  have hhere := ht (k + i) (by omega)
  rw [Nat.add_assoc, hthere, ← hhere, ← h i hi, Nat.add_assoc]

/-- A move inside the memory goes through. -/
theorem move_of_le (mem : List α) (dst src n : ℕ) (hsrc : src + n ≤ mem.length)
    (hdst : dst + n ≤ mem.length) : ∃ mem', move mem dst src n = some mem' := by
  have hlen : ((mem.drop src).take n).length = n := by
    rw [List.length_take, List.length_drop]
    omega
  rw [move, read, if_pos hsrc, Option.bind_some]
  exact write_of_le _ _ _ (by rw [hlen]; exact hdst)

theorem length_move {mem mem' : List α} {dst src n : ℕ} (h : move mem dst src n = some mem') :
    mem'.length = mem.length := by
  rw [move, Option.bind_eq_some_iff] at h
  obtain ⟨s, -, hwrite⟩ := h
  exact length_write hwrite

/-- What stands outside of the target of a move stays. -/
theorem At.frame_move {mem mem' s : List α} {off dst src n : ℕ} (h : At mem off s)
    (hmove : Memory.move mem dst src n = some mem')
    (hdisjoint : off + s.length ≤ dst ∨ dst + n ≤ off) : At mem' off s := by
  rw [Memory.move, Option.bind_eq_some_iff] at hmove
  obtain ⟨t, hread, hwrite⟩ := hmove
  obtain ⟨-, hlen⟩ := at_of_read hread
  exact h.frame hwrite (by omega)

/-! ## Strings -/

/-- A terminator ends the string. -/
theorem At.strAt [DecidableEq α] {mem s : List α} {off : ℕ} {z : α} (h : At mem off (s ++ [z]))
    (hz : z ∉ s) : strAt z mem off = some s := by
  have htake := h.drop_eq
  rw [List.length_append, List.length_singleton] at htake
  have hsplit : mem.drop off = s ++ z :: (mem.drop off).drop (s.length + 1) := by
    conv_lhs => rw [← List.take_append_drop (s.length + 1) (mem.drop off), htake]
    simp
  rw [Memory.strAt, hsplit, if_pos (by simp), Strchr.takeWhile_ne hz]

/-! ## Numbers -/

/-- The `k` lowest bytes of a number, the lowest one first. -/
def bytesOf : ℕ → ℕ → List Char
  | 0, _ => []
  | k + 1, n => Char.ofNat (n % 256) :: bytesOf k (n / 256)

/-- The number that some bytes stand for. -/
def valueOf : List Char → ℕ
  | [] => 0
  | c :: s => c.toNat + 256 * valueOf s

@[simp] theorem length_bytesOf (k n : ℕ) : (bytesOf k n).length = k := by
  induction k generalizing n with
  | zero => rfl
  | succ k ih => rw [bytesOf, List.length_cons, ih]

/-- A number that fits comes back from its bytes. -/
theorem valueOf_bytesOf {k n : ℕ} (h : n < 256 ^ k) : valueOf (bytesOf k n) = n := by
  induction k generalizing n with
  | zero =>
    rw [Nat.pow_zero] at h
    rw [bytesOf, valueOf]
    omega
  | succ k ih =>
    have hdiv : n / 256 < 256 ^ k := by
      rw [Nat.pow_succ] at h
      omega
    have hmod : n % 256 < 256 := Nat.mod_lt n (by decide)
    have hchar : (Char.ofNat (n % 256)).toNat = n % 256 := by
      have hvalid : (n % 256).isValidChar := Or.inl (by omega)
      rw [Char.ofNat, dif_pos hvalid]
      rfl
    rw [bytesOf, valueOf, ih hdiv, hchar]
    omega

end Lib.Memory
