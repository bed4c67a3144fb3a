import Fdm.Lib.Memory
import Mathlib.Algebra.Group.Nat.Defs

/-!
# Memory that grows

`xmalloc.c`: `xrealloc`, `ensure_for` and `ensure_size`, with the sizes as they are computed in a
`size_t`.

* `Sound`: a computation does not go outside of a block, and what holds of its result;
* `double_spec` and `double_ok`: the loop that doubles a block.
-/

namespace Fdm.Xmalloc

open Lib.Memory

/-! ## The code -/

/-- Why there is no result: `fatal` and `fatalx`, an access outside of a block, or a loop that is
cut short. -/
inductive Stop
  | fatal
  | fault
  | stuck
deriving DecidableEq, Repr

/-- The C library: the sizes that `malloc` and `realloc` have memory for, what is in new memory, and
`BUFSIZ`. -/
structure Libc where
  grants : UInt64 → Bool
  junk : ℕ → Char
  bufsiz : UInt64

/-- `SIZE_MAX`. -/
def sizeMax : UInt64 := 0xffffffffffffffff

section

variable (c : Libc)

/-- `xmalloc`. -/
def xmalloc (size : UInt64) : Except Stop (List Char) :=
  if size = 0 then .error .fatal
  else if c.grants size then .ok (resize c.junk size.toNat []) else .error .fatal

/-- `xrealloc`. -/
def xrealloc (mem : List Char) (nmemb size : UInt64) : Except Stop (List Char) :=
  let newsize := nmemb * size
  if newsize = 0 then .error .fatal
  else if sizeMax / nmemb < size then .error .fatal
  else if c.grants newsize then .ok (resize c.junk newsize.toNat mem) else .error .fatal

/-- The loop that doubles a block while it is too small; the second argument bounds its passes. -/
def double (small : UInt64 → Bool) : ℕ → List Char → UInt64 → Except Stop (List Char × UInt64)
  | 0, _, _ => .error .stuck
  | n + 1, buf, len =>
    if small len then
      match xrealloc c buf 2 len with
      | .error e => .error e
      | .ok buf => double small n buf (len * 2)
    else .ok (buf, len)

/-- What `ensure_for` and `ensure_size` begin with. -/
def begin (buf : List Char) (len : UInt64) : Except Stop (List Char × UInt64) :=
  if len = 0 then (xmalloc c c.bufsiz).map fun buf => (buf, c.bufsiz) else .ok (buf, len)

/-- `ensure_for`: the block, and `*len`. -/
def ensureFor (buf : List Char) (len size adj : UInt64) : Except Stop (List Char × UInt64) :=
  if adj = 0 then .error .fatal
  else if sizeMax - size < adj then .error .fatal
  else
    match begin c buf len with
    | .error e => .error e
    | .ok (buf, len) => double c (fun len => len ≤ size + adj) 65 buf len

/-- `ensure_size`. -/
def ensureSize (buf : List Char) (len nmemb size : UInt64) : Except Stop (List Char × UInt64) :=
  if nmemb = 0 ∨ size = 0 then .error .fatal
  else if sizeMax / nmemb < size then .error .fatal
  else
    match begin c buf len with
    | .error e => .error e
    | .ok (buf, len) => double c (fun len => len ≤ nmemb * size) 65 buf len

end

/-- `memcpy` to an offset. -/
def store (mem : List Char) (off : UInt64) (s : List Char) : Except Stop (List Char) :=
  (write mem off.toNat s).elim (.error .fault) .ok

/-! ## What holds of a result -/

/-- The program has ended, or a result has a property. -/
def Sound {α : Type} (P : α → Prop) : Except Stop α → Prop
  | .ok a => P a
  | .error .fatal => True
  | .error .fault => False
  | .error .stuck => False

theorem Sound.mono {α : Type} {P Q : α → Prop} {r : Except Stop α} (h : Sound P r)
    (hPQ : ∀ a, P a → Q a) : Sound Q r := by
  cases r with
  | ok a => exact hPQ a h
  | error e =>
    cases e with
    | fatal => trivial
    | fault => exact h
    | stuck => exact h

theorem Sound.of_ok {α : Type} {P : α → Prop} {r : Except Stop α} {a : α} (h : Sound P r)
    (hr : r = .ok a) : P a := by
  rw [hr] at h
  exact h

theorem Sound.of_error {α : Type} {P : α → Prop} {r : Except Stop α} {e : Stop} (h : Sound P r)
    (hr : r = .error e) : e = .fatal := by
  rw [hr] at h
  cases e with
  | fatal => rfl
  | fault => exact h.elim
  | stuck => exact h.elim

/-! ## Sizes -/

/-- A sum that is not too large. -/
theorem toNat_add_of_lt {a b : UInt64} (h : a.toNat + b.toNat < 2 ^ 64) :
    (a + b).toNat = a.toNat + b.toNat := by
  rw [UInt64.toNat_add, Nat.mod_eq_of_lt h]

/-- A difference that is not negative. -/
theorem toNat_sub_of_le {a b : UInt64} (h : b.toNat ≤ a.toNat) :
    (a - b).toNat = a.toNat - b.toNat :=
  UInt64.toNat_sub_of_le _ _ (UInt64.le_iff_toNat_le.2 h)

theorem toNat_le_of_not_lt {a b : UInt64} (h : ¬ a < b) : b.toNat ≤ a.toNat := by
  rw [UInt64.lt_iff_toNat_lt] at h
  omega

/-! ## Doubling -/

section

variable {c : Libc} {small : UInt64 → Bool}

/-- A block that is as large as its length says, and holds what another one held. -/
structure Grown (buf : List Char) (len : UInt64) (r : List Char × UInt64) : Prop where
  le : len.toNat ≤ r.2.toNat
  room : r.2.toNat ≤ r.1.length
  exact : buf.length = len.toNat → r.1.length = r.2.toNat
  keeps : ∀ s off, At buf off s → off + s.length ≤ len.toNat → At r.1 off s

/-- A block that is doubled keeps its bytes; a size that wraps ends the program. -/
theorem xrealloc_two (c : Libc) (buf : List Char) {len : UInt64} (hlen : 0 < len.toNat) :
    Sound (fun buf' => (len * 2).toNat = 2 * len.toNat ∧ buf'.length = 2 * len.toNat ∧
      ∀ s off, At buf off s → off + s.length ≤ len.toNat → At buf' off s)
      (xrealloc c buf 2 len) := by
  have hmax : sizeMax / 2 = 0x7fffffffffffffff := by decide
  unfold xrealloc
  dsimp only
  rw [hmax]
  split_ifs with hzero hlarge hgrants
  · trivial
  · trivial
  · have hle : len.toNat ≤ 0x7fffffffffffffff := by
      simpa [UInt64.lt_iff_toNat_lt] using hlarge
    have hdouble : (2 * len).toNat = 2 * len.toNat := by
      rw [UInt64.toNat_mul]
      simp only [UInt64.reduceToNat]
      omega
    refine ⟨?_, ?_, ?_⟩
    · rw [UInt64.mul_comm]
      exact hdouble
    · rw [length_resize, hdouble]
    · intro s off hs hoff
      exact hs.resize (by rw [hdouble]; omega) c.junk
  · trivial

/-- The loop ends, with a block that is large enough. -/
theorem double_spec (c : Libc) (small : UInt64 → Bool) (n : ℕ) {buf : List Char} {len : UInt64}
    (hlen : 0 < len.toNat) (hroom : len.toNat ≤ buf.length) (hn : 2 ^ 64 < 2 ^ n * len.toNat) :
    Sound (fun r => small r.2 = false ∧ Grown buf len r) (double c small n buf len) := by
  induction n generalizing buf len with
  | zero =>
    have hlt := len.toNat_lt
    omega
  | succ n ih =>
    rw [double]
    split
    · have hreal := xrealloc_two c buf hlen
      cases hbuf : xrealloc c buf 2 len with
      | error e =>
        obtain rfl := hreal.of_error hbuf
        trivial
      | ok buf' =>
        obtain ⟨hdouble, hlength, hkeeps⟩ := hreal.of_ok hbuf
        have hnext := @ih buf' (len * 2) (by omega) (by omega) (by
          rw [hdouble, ← Nat.mul_assoc]
          exact hn)
        refine hnext.mono ?_
        rintro r ⟨hsmall, hle, hroom', hexact, hkeeps'⟩
        refine ⟨hsmall, by omega, hroom', fun _ => hexact (by omega), ?_⟩
        intro s off hs hoff
        exact hkeeps' s off (hkeeps s off hs hoff) (by omega)
    · next hsmall =>
      exact ⟨by simpa using hsmall, le_rfl, hroom, fun hexact => hexact, fun s off hs _ => hs⟩

theorem xrealloc_two_ok (hgrants : ∀ n, c.grants n = true) (buf : List Char) {len : UInt64}
    (hlen : 0 < len.toNat) (hlarge : len.toNat < 2 ^ 63) :
    ∃ buf', xrealloc c buf 2 len = .ok buf' := by
  have hmax : sizeMax / 2 = 0x7fffffffffffffff := by decide
  have hdouble : (2 * len).toNat = 2 * len.toNat := by
    rw [UInt64.toNat_mul]
    simp only [UInt64.reduceToNat]
    omega
  have hzero : ¬ 2 * len = 0 := by
    intro h
    rw [← UInt64.toNat_inj, hdouble] at h
    simp only [UInt64.toNat_zero] at h
    omega
  have hsmall : ¬ sizeMax / 2 < len := by
    rw [hmax, UInt64.lt_iff_toNat_lt]
    simp only [UInt64.reduceToNat]
    omega
  unfold xrealloc
  dsimp only
  rw [if_neg hzero, if_neg hsmall, if_pos (hgrants _)]
  exact ⟨_, rfl⟩

/-- When there is memory, and nothing of half the address space is too small, there is a result. -/
theorem double_ok (hgrants : ∀ n, c.grants n = true)
    (hsmall : ∀ len, small len = true → len.toNat < 2 ^ 63) (n : ℕ) {buf : List Char} {len : UInt64}
    (hlen : 0 < len.toNat) (hn : 2 ^ 64 < 2 ^ n * len.toNat) :
    ∃ r, double c small n buf len = .ok r := by
  induction n generalizing buf len with
  | zero =>
    have hlt := len.toNat_lt
    omega
  | succ n ih =>
    rw [double]
    split
    · next hlen' =>
      obtain ⟨buf', hbuf⟩ := xrealloc_two_ok hgrants buf hlen (hsmall len hlen')
      obtain ⟨hdouble, -, -⟩ := (xrealloc_two c buf hlen).of_ok hbuf
      rw [hbuf]
      apply ih
      · omega
      · rw [hdouble, ← Nat.mul_assoc]
        exact hn
    · exact ⟨_, rfl⟩

/-! ## `ensure_for` and `ensure_size` -/

theorem begin_eq {buf : List Char} {len : UInt64} (hlen : 0 < len.toNat) :
    begin c buf len = .ok (buf, len) := by
  have hzero : ¬ len = 0 := by
    rintro rfl
    exact absurd hlen (Nat.lt_irrefl 0)
  rw [begin, if_neg hzero]

/-- A sum that passes the check does not wrap. -/
theorem toNat_add_of_le {size adj : UInt64} (h : ¬ sizeMax - size < adj) :
    (size + adj).toNat = size.toNat + adj.toNat := by
  have hsize := size.toNat_lt
  have hmax : sizeMax.toNat = 2 ^ 64 - 1 := by decide
  rw [UInt64.lt_iff_toNat_lt, toNat_sub_of_le (by omega), hmax] at h
  exact toNat_add_of_lt (by omega)

/-- There is room for `adj` bytes behind the first `size`, and one more. -/
theorem ensureFor_spec (c : Libc) {buf : List Char} {len : UInt64} (size adj : UInt64)
    (hlen : 0 < len.toNat) (hroom : len.toNat ≤ buf.length) :
    Sound (fun r => adj ≠ 0 ∧ size.toNat + adj.toNat < r.2.toNat ∧ Grown buf len r)
      (ensureFor c buf len size adj) := by
  unfold ensureFor
  split_ifs with hadj hmax
  · trivial
  · trivial
  · rw [begin_eq hlen]
    refine (double_spec c _ 65 hlen hroom (by omega)).mono ?_
    rintro r ⟨hlarge, hgrown⟩
    refine ⟨hadj, ?_, hgrown⟩
    rwa [decide_eq_false_iff_not, UInt64.not_le, UInt64.lt_iff_toNat_lt, toNat_add_of_le hmax]
      at hlarge

/-- There is room behind the first `size` bytes. -/
theorem ensureSize_spec (c : Libc) {buf : List Char} {len : UInt64} (size : UInt64)
    (hlen : 0 < len.toNat) (hroom : len.toNat ≤ buf.length) :
    Sound (fun r => size.toNat < r.2.toNat ∧ Grown buf len r) (ensureSize c buf len 1 size) := by
  unfold ensureSize
  split_ifs with hzero hmax
  · trivial
  · trivial
  · rw [begin_eq hlen]
    refine (double_spec c _ 65 hlen hroom (by omega)).mono ?_
    rintro r ⟨hlarge, hgrown⟩
    refine ⟨?_, hgrown⟩
    rwa [UInt64.one_mul, decide_eq_false_iff_not, UInt64.not_le, UInt64.lt_iff_toNat_lt] at hlarge

/-- With memory at hand and sizes that do not wrap, `ensure_for` returns. -/
theorem ensureFor_ok (hgrants : ∀ n, c.grants n = true) (buf : List Char)
    {len size adj : UInt64} (hlen : 0 < len.toNat) (hadj : adj ≠ 0)
    (hsum : size.toNat + adj.toNat < 2 ^ 63) :
    ∃ r, ensureFor c buf len size adj = .ok r := by
  have hmax : ¬ sizeMax - size < adj := by
    have hsize : sizeMax.toNat = 2 ^ 64 - 1 := by decide
    have hle := size.toNat_lt
    rw [UInt64.lt_iff_toNat_lt, toNat_sub_of_le (by omega), hsize]
    omega
  rw [ensureFor, if_neg hadj, if_neg hmax, begin_eq hlen]
  refine double_ok hgrants ?_ 65 hlen (by omega)
  intro l hl
  rw [decide_eq_true_iff, UInt64.le_iff_toNat_le, toNat_add_of_le hmax] at hl
  omega

/-- So does `ensure_size`. -/
theorem ensureSize_ok (hgrants : ∀ n, c.grants n = true) (buf : List Char)
    {len size : UInt64} (hlen : 0 < len.toNat) (hsize : size ≠ 0) (hlarge : size.toNat < 2 ^ 63) :
    ∃ r, ensureSize c buf len 1 size = .ok r := by
  have hmax : ¬ sizeMax / 1 < size := by
    rw [UInt64.div_one, UInt64.not_lt, UInt64.le_iff_toNat_le]
    have hall : sizeMax.toNat = 2 ^ 64 - 1 := by decide
    omega
  have hzero : ¬ ((1 : UInt64) = 0 ∨ size = 0) := by
    rintro (h | h)
    · exact absurd h (by decide)
    · exact hsize h
  rw [ensureSize, if_neg hzero, if_neg hmax, begin_eq hlen]
  refine double_ok hgrants ?_ 65 hlen (by omega)
  intro l hl
  rw [decide_eq_true_iff, UInt64.one_mul, UInt64.le_iff_toNat_le] at hl
  omega

end

end Fdm.Xmalloc
