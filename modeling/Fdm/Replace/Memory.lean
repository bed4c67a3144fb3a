import Fdm.Lib.Memory
import Fdm.Replace.Pieces

/-!
# `replace` in memory

The loop of `replace` over the block that holds the template, with the terminator it puts into the
template while it looks up a name, and over the output, which `ensure_for` enlarges. Memory does
not run out.

* `percentMem_spec`: what a `%` sequence leaves;
* `loop_spec`: the loop writes what the pieces of the template give;
* `bounded_iff`: when nothing is read behind the template and nothing is cut off by a NUL.
-/

namespace Fdm.Replace

open Lib.Memory
open Lib.Strchr (takeWhile_ne dropWhile_ne)

/-! ## Memory -/

/-- What goes wrong. -/
inductive Fault
  | read
  | write
  | fatal
  | stuck
deriving DecidableEq, Repr

/-- `mem[i]`. -/
def fetch (mem : List Char) (i : ℕ) : Except Fault Char := (mem[i]?).elim (.error .read) .ok

/-- The string at `i`. -/
def string (mem : List Char) (i : ℕ) : Except Fault (List Char) :=
  (strAt '\x00' mem i).elim (.error .read) .ok

/-- `memcpy`. -/
def store (mem : List Char) (i : ℕ) (s : List Char) : Except Fault (List Char) :=
  (write mem i s).elim (.error .write) .ok

/-- The loop of `ensure_for`: double the length until it is greater than `size`. -/
def double : ℕ → ℕ → ℕ → ℕ
  | 0, len, _ => len
  | n + 1, len, size => if len ≤ size then double n (2 * len) size else len

/-- `ensure_for`, for a block that is not empty; `junk` is what new memory holds. -/
def ensureFor (junk : ℕ → Char) (buf : List Char) (size adj : ℕ) : Except Fault (List Char) :=
  if adj = 0 then .error .fatal
  else .ok (resize junk (double (size + adj) buf.length (size + adj)) buf)

/-- The variables of `replace`. -/
structure Scan where
  src : List Char
  ptr : ℕ
  dst : List Char
  off : ℕ
  strip : Bool

section

variable (junk : ℕ → Char) (stripChars : List Char) (findTag : List Char → Option (List Char))
  (sub : Char → Option (List Char))

/-- `ENSURE_FOR` for `adj` bytes, of which some are then written. -/
def put (st : Scan) (adj : ℕ) (s : List Char) : Except Fault Scan := do
  let dst ← ensureFor junk st.dst st.off adj
  let dst ← store dst st.off s
  pure { st with dst := dst, off := st.off + s.length }

/-- How a `%` sequence is left: `goto out`, `continue`, or with a value. -/
inductive Action
  | out
  | next
  | copy (value : List Char)
deriving DecidableEq, Repr

/-- A string of C, as far as `strlen` goes. -/
def cString (value : List Char) : List Char := value.takeWhile (· ≠ '\x00')

/-- The name from `ptr` to `tend` is looked up, with the bracket behind it cut off meanwhile. -/
def lookupMem (st : Scan) (tend : ℕ) : Except Fault (Scan × Action) :=
  if st.ptr = tend then pure (st, .next)
  else do
    let src ← store st.src tend ['\x00']
    let key ← string src st.ptr
    let src ← store src tend [']']
    match findTag key with
    | none => pure ({ st with src := src, ptr := tend }, .next)
    | some tptr => pure ({ st with src := src, ptr := tend }, .copy (cString tptr))

/-- `case '['`, with `ptr` at the bracket. -/
def bracketMem (st : Scan) : Except Fault (Scan × Action) := do
  let str ← string st.src st.ptr
  if ']' ∈ str then
    let tend := st.ptr + (str.takeWhile (· ≠ ']')).length
    let ch ← fetch st.src (st.ptr + 1)
    if ch = ':' then lookupMem findTag { st with ptr := st.ptr + 2, strip := false } tend
    else lookupMem findTag { st with ptr := st.ptr + 1 } tend
  else
    let st ← put junk st 2 ['%', '[']
    pure (st, .next)

/-- The `switch` behind a `%`, with `ptr` at the `%`. -/
def percentMem (st : Scan) : Except Fault (Scan × Action) := do
  let st := { st with ptr := st.ptr + 1 }
  let ch ← fetch st.src st.ptr
  if ch = '\x00' then pure (st, .out)
  else if ch = '%' then
    let st ← put junk st 1 ['%']
    pure (st, .next)
  else if ch = '[' then bracketMem junk findTag st
  else if ch = ':' then
    let st := { st with ptr := st.ptr + 1 }
    let ch ← fetch st.src st.ptr
    if ch.isDigit then
      match sub ch with
      | none => pure (st, .next)
      | some tptr => pure ({ st with strip := false }, .copy tptr)
    else
      let st ← put junk st 1 [ch]
      pure (st, .next)
  else if ch.isDigit then
    match sub ch with
    | none => pure (st, .next)
    | some tptr => pure (st, .copy tptr)
  else
    match (aliasOf ch).bind fun key => findTag key.toList with
    | none => pure (st, .next)
    | some tptr => pure (st, .copy (cString tptr))

/-- What follows the `switch`: nothing for an empty value. -/
def copyMem (st : Scan) (value : List Char) : Except Fault Scan :=
  if value = [] then pure st else put junk st value.length (written stripChars st.strip value)

/-- Where the loop starts, with `REPLBUFSIZE` bytes for the output. -/
def begun (src : List Char) : Scan :=
  { src := src, ptr := 0, dst := resize junk 64 [], off := 0, strip := true }

/-- The loop of `replace`; the first argument bounds its passes. -/
def loop : ℕ → Scan → Except Fault Scan
  | 0, _ => .error .stuck
  | fuel + 1, st => do
    let ch ← fetch st.src st.ptr
    if ch = '\x00' then pure st
    else if ch ≠ '%' then
      let st ← put junk st 1 [ch]
      loop fuel { st with ptr := st.ptr + 1 }
    else
      let (st, action) ← percentMem junk findTag sub st
      match action with
      | .out => pure st
      | .next => loop fuel { st with ptr := st.ptr + 1 }
      | .copy value => do
        let st ← copyMem junk stripChars st value
        loop fuel { st with ptr := st.ptr + 1 }

/-- What `replace` leaves: the template, and the block it returns, of which it has written the
bytes in front of `off`. -/
structure Returned where
  template : List Char
  dst : List Char
  off : ℕ
deriving DecidableEq, Repr

/-- `replace`, for a block with a template in it. -/
def replaceMem (src : List Char) : Except Fault Returned := do
  let ch ← fetch src 0
  if ch = '\x00' then pure ⟨src, ['\x00'], 0⟩
  else
    let st ← loop junk stripChars findTag sub src.length (begun junk src)
    let dst ← ensureFor junk st.dst st.off 1
    let dst ← store dst st.off ['\x00']
    pure ⟨st.src, dst, st.off⟩

end

/-! ## Room in the output -/

section

variable {junk : ℕ → Char} {stripChars : List Char} {findTag : List Char → Option (List Char)}
  {sub : Char → Option (List Char)} {mem : List Char} {st : Scan} {src emitted : List Char}

theorem ok_bind {β γ : Type} (a : β) (f : β → Except Fault γ) :
    ((Except.ok a : Except Fault β) >>= f) = f a := rfl

theorem error_bind {β γ : Type} (x : Fault) (f : β → Except Fault γ) :
    ((Except.error x : Except Fault β) >>= f) = .error x := rfl

theorem lt_double {n len size : ℕ} (hpos : 0 < len) (hn : size < n + len) :
    size < double n len size := by
  induction n generalizing len with
  | zero =>
    rw [double]
    omega
  | succ n ih =>
    rw [double]
    by_cases hlen : len ≤ size
    · rw [if_pos hlen]
      apply ih
      · omega
      · omega
    · rw [if_neg hlen]
      omega

/-- The template is as it was, and what has been emitted stands in the output with a byte to
spare. -/
structure Inv (src emitted : List Char) (st : Scan) : Prop where
  src : st.src = src ++ ['\x00']
  dst : At st.dst 0 emitted
  off : st.off = emitted.length
  room : st.off < st.dst.length

/-- `ENSURE_FOR` makes room. -/
theorem ensureFor_spec {buf : List Char} {size adj : ℕ} {s : List Char} (h : At buf 0 s)
    (hs : s.length = size) (hroom : size < buf.length) (hadj : adj ≠ 0) :
    ∃ buf', ensureFor junk buf size adj = .ok buf' ∧ At buf' 0 s ∧ size + adj < buf'.length := by
  have hlong : size + adj < double (size + adj) buf.length (size + adj) := by
    apply lt_double
    · omega
    · omega
  rw [ensureFor, if_neg hadj]
  refine ⟨_, rfl, ?_, ?_⟩
  · apply h.resize
    omega
  · rw [length_resize]
    exact hlong

theorem put_spec (h : Inv src emitted st) {adj : ℕ} {s : List Char} (hadj : adj ≠ 0)
    (hs : s.length ≤ adj) :
    ∃ st', put junk st adj s = .ok st' ∧ Inv src (emitted ++ s) st' ∧ st'.ptr = st.ptr ∧
      st'.strip = st.strip := by
  obtain ⟨buf, hbuf, hat, hlong⟩ : ∃ buf, ensureFor junk st.dst st.off adj = .ok buf ∧
      At buf 0 emitted ∧ st.off + adj < buf.length :=
    ensureFor_spec h.dst h.off.symm h.room hadj
  obtain ⟨buf', hwrite⟩ := write_of_le buf s st.off (by omega)
  have hstore : store buf st.off s = .ok buf' := by rw [store, hwrite, Option.elim_some]
  refine ⟨{ st with dst := buf', off := st.off + s.length }, ?_, ⟨h.src, ?_, ?_, ?_⟩, rfl, rfl⟩
  · rw [put, hbuf, ok_bind, hstore, ok_bind]
    rfl
  · rw [At.append_iff]
    refine ⟨hat.frame hwrite (Or.inl ?_), ?_⟩
    · rw [h.off]
      omega
    · have hnew := At.write hwrite
      rw [h.off] at hnew
      rw [Nat.zero_add]
      exact hnew
  · show st.off + s.length = (emitted ++ s).length
    rw [List.length_append, h.off]
  · show st.off + s.length < buf'.length
    rw [length_write hwrite]
    omega

theorem length_written_value (strip : Bool) (value : List Char) :
    (written stripChars strip value).length ≤ value.length := by
  cases strip with
  | true => exact List.length_filter_le _ value
  | false => exact Nat.le_refl _

theorem copyMem_spec (h : Inv src emitted st) (value : List Char) :
    ∃ st', copyMem junk stripChars st value = .ok st' ∧
      Inv src (emitted ++ written stripChars st.strip value) st' ∧ st'.ptr = st.ptr ∧
      st'.strip = st.strip := by
  by_cases hvalue : value = []
  · subst hvalue
    refine ⟨st, ?_, ?_, rfl, rfl⟩
    · rw [copyMem, if_pos rfl]
      rfl
    · rw [written_nil, List.append_nil]
      exact h
  · rw [copyMem, if_neg hvalue]
    apply put_spec h
    · rw [ne_eq, List.length_eq_zero_iff]
      exact hvalue
    · exact length_written_value st.strip value

/-! ## Reading the template -/

theorem fetch_append (a : List Char) (c : Char) (b : List Char) :
    fetch (a ++ c :: b) a.length = .ok c := by
  rw [fetch, List.getElem?_append_right (Nat.le_refl _), Nat.sub_self]
  rfl

theorem string_append {a b : List Char} (hb : '\x00' ∉ b) (t : List Char) :
    string (a ++ (b ++ '\x00' :: t)) a.length = .ok b := by
  rw [string, strAt, List.drop_left, if_pos, takeWhile_ne hb]
  · rfl
  · exact List.mem_append_right _ List.mem_cons_self

theorem store_append (a : List Char) (c d : Char) (b : List Char) :
    store (a ++ c :: b) a.length [d] = .ok (a ++ d :: b) := by
  have hlength : a.length + [d].length ≤ (a ++ c :: b).length := by simp
  rw [store, write, if_pos hlength, Option.elim_some, List.take_left]
  simp

/-! ## One `%` sequence -/

/-- What a name is looked up for. -/
def found (findTag : List Char → Option (List Char)) (name : List Char) : Action :=
  match if name = [] then none else findTag name with
  | none => .next
  | some tptr => .copy (cString tptr)

/-- A name is looked up, and the template is as it was. -/
theorem lookupMem_spec {front name t : List Char} {tend : ℕ} (h : Inv src emitted st)
    (hsrc : src = front ++ (name ++ ']' :: t)) (hptr : st.ptr = front.length)
    (htend : tend = front.length + name.length) (hnul : '\x00' ∉ name) :
    ∃ st', lookupMem findTag st tend = .ok (st', found findTag name) ∧ Inv src emitted st' ∧
      st'.ptr = tend ∧ st'.strip = st.strip := by
  by_cases hname : name = []
  · subst hname
    have hhere : st.ptr = tend := by
      rw [hptr, htend]
      rfl
    refine ⟨st, ?_, h, hhere, rfl⟩
    rw [lookupMem, if_pos hhere, found, if_pos rfl]
    rfl
  · have hthere : ¬ st.ptr = tend := by
      have hpos := List.length_pos_iff.mpr hname
      omega
    have hblock : ∀ c : Char, (front ++ name) ++ c :: (t ++ ['\x00'])
        = front ++ (name ++ c :: (t ++ ['\x00'])) := by
      intro c
      rw [List.append_assoc]
    have hlength : tend = (front ++ name).length := by rw [htend, List.length_append]
    have hst : st.src = (front ++ name) ++ ']' :: (t ++ ['\x00']) := by
      rw [h.src, hsrc, hblock]
      simp
    have hcut : store st.src tend ['\x00'] =
        .ok ((front ++ name) ++ '\x00' :: (t ++ ['\x00'])) := by
      rw [hst, hlength, store_append]
    have hkey : string ((front ++ name) ++ '\x00' :: (t ++ ['\x00'])) st.ptr = .ok name := by
      rw [hblock, hptr, string_append hnul]
    have hback : store ((front ++ name) ++ '\x00' :: (t ++ ['\x00'])) tend [']'] = .ok st.src := by
      rw [hst, hlength, store_append]
    refine ⟨{ st with ptr := tend }, ?_, ⟨h.src, h.dst, h.off, h.room⟩, rfl, rfl⟩
    rw [lookupMem, if_neg hthere, hcut, ok_bind, hkey, ok_bind, hback, ok_bind, found,
      if_neg hname]
    cases findTag name <;> rfl

/-- Where a `%` sequence for a complete piece, or a `%` at the end, leaves the loop. -/
def Left (stripChars : List Char) (findTag : List Char → Option (List Char))
    (sub : Char → Option (List Char)) (src emitted : List Char) (strip : Bool) (p : Piece)
    (rest : List Char) (r : Scan × Action) : Prop :=
  r.1.strip = (strip && !p.clears sub) ∧
    match r.2 with
    | .out => rest = [] ∧ p.emit stripChars findTag sub r.1.strip = [] ∧ Inv src emitted r.1
    | .next => r.1.ptr + 1 + rest.length = src.length ∧
        Inv src (emitted ++ p.emit stripChars findTag sub r.1.strip) r.1
    | .copy value => r.1.ptr + 1 + rest.length = src.length ∧
        written stripChars r.1.strip value = p.emit stripChars findTag sub r.1.strip ∧
        Inv src emitted r.1

/-- The values of tags as `strlen` measures them. -/
def tagString (findTag : List Char → Option (List Char)) (key : List Char) : Option (List Char) :=
  (findTag key).map cString

theorem bracketed_eq {key : List Char} (hkey : ']' ∉ key) (t : List Char) :
    bracketed (key ++ ']' :: t) =
      (if key.head? = some ':' then .tag true (key.drop 1) else .tag false key, t) := by
  rw [bracketed, takeWhile_ne hkey, dropWhile_ne hkey]
  split_ifs <;> rfl

/-- What has been looked up is the value of the piece. -/
theorem left_found {rest name : List Char} {verbatim strip : Bool} {st' : Scan}
    (hstrip : st'.strip = (strip && !verbatim)) (hptr : st'.ptr + 1 + rest.length = src.length)
    (h : Inv src emitted st') :
    Left stripChars (tagString findTag) sub src emitted strip (.tag verbatim name) rest
      (st', found findTag name) := by
  refine ⟨hstrip, ?_⟩
  rw [found, Piece.emit, Piece.value]
  by_cases hname : name = []
  · rw [if_pos hname, if_pos hname]
    dsimp only
    rw [written_nil, List.append_nil]
    exact ⟨hptr, h⟩
  · rw [if_neg hname, if_neg hname, tagString]
    cases findTag name with
    | none =>
      dsimp only
      rw [Option.map_none, Option.getD_none, written_nil, List.append_nil]
      exact ⟨hptr, h⟩
    | some tptr => exact ⟨hptr, rfl, h⟩

theorem bracketMem_spec {base s : List Char} (h : Inv src emitted st)
    (hsrc : src = base ++ '[' :: s) (hptr : st.ptr = base.length) (hnul : '\x00' ∉ src) :
    ∃ r, bracketMem junk findTag st = .ok r ∧
      Left stripChars (tagString findTag) sub src emitted st.strip (reference ('[' :: s)).1
        (reference ('[' :: s)).2 r := by
  have hnuls : '\x00' ∉ '[' :: s := by
    intro hmem
    apply hnul
    rw [hsrc]
    exact List.mem_append_right base hmem
  have hstr : string st.src st.ptr = .ok ('[' :: s) := by
    rw [h.src, hsrc, hptr, List.append_assoc]
    exact string_append hnuls []
  rw [bracketMem, hstr, ok_bind, reference]
  by_cases hclose : ']' ∈ s
  · obtain ⟨key, t, rfl, hkey⟩ := List.eq_append_cons_of_mem hclose
    have hnulkey : '\x00' ∉ key := fun hmem =>
      hnuls (List.mem_cons_of_mem _ (List.mem_append_left _ hmem))
    have htake : ('[' :: (key ++ ']' :: t)).takeWhile (· ≠ ']') = '[' :: key := by
      rw [List.takeWhile_cons_of_pos (by decide), takeWhile_ne hkey]
    rw [if_pos (List.mem_cons_of_mem _ hclose), if_pos hclose, htake, bracketed_eq hkey]
    have hlength : src.length = base.length + (key.length + t.length + 2) := by
      rw [hsrc]
      simp only [List.length_append, List.length_cons]
      omega
    have hat : ∀ (c : Char) (u : List Char), key ++ ']' :: t = c :: u →
        fetch st.src (st.ptr + 1) = .ok c := by
      intro c u hkeyc
      have hfetch := fetch_append (base ++ ['[']) c (u ++ ['\x00'])
      rw [List.length_append, List.length_singleton] at hfetch
      rw [h.src, hsrc, hptr, hkeyc, ← hfetch]
      simp
    by_cases hcolon : key.head? = some ':'
    · -- the name is behind the colon
      obtain ⟨name, rfl⟩ : ∃ name, key = ':' :: name := by
        cases key with
        | nil => cases hcolon
        | cons c key =>
          obtain rfl : c = ':' := by simpa using hcolon
          exact ⟨key, rfl⟩
      have hfront : src = (base ++ ['[', ':']) ++ (name ++ ']' :: t) := by
        rw [hsrc]
        simp
      have hinv : Inv src emitted { st with ptr := st.ptr + 2, strip := false } :=
        ⟨h.src, h.dst, h.off, h.room⟩
      have hnulname : '\x00' ∉ name := fun hmem => hnulkey (List.mem_cons_of_mem _ hmem)
      rw [List.length_cons] at hlength
      obtain ⟨st', hlookup, hst', hptr', hstrip⟩ :
          ∃ st', lookupMem findTag { st with ptr := st.ptr + 2, strip := false }
              (st.ptr + ('[' :: ':' :: name).length) = .ok (st', found findTag name) ∧
            Inv src emitted st' ∧ st'.ptr = st.ptr + ('[' :: ':' :: name).length ∧
            st'.strip = false := by
        apply lookupMem_spec hinv hfront
        · show st.ptr + 2 = _
          simp [hptr]
        · simp only [List.length_cons, List.length_append, List.length_nil, hptr]
          omega
        · exact hnulname
      refine ⟨_, ?_, left_found ?_ ?_ hst'⟩
      · rw [hat ':' (name ++ ']' :: t) rfl, ok_bind, if_pos rfl]
        exact hlookup
      · rw [hstrip, Bool.not_true, Bool.and_false]
      · rw [hptr', hlength, hptr]
        simp only [List.length_cons]
        omega
    · have hfront : src = (base ++ ['[']) ++ (key ++ ']' :: t) := by
        rw [hsrc]
        simp
      have hinv : Inv src emitted { st with ptr := st.ptr + 1 } := ⟨h.src, h.dst, h.off, h.room⟩
      obtain ⟨st', hlookup, hst', hptr', hstrip⟩ :
          ∃ st', lookupMem findTag { st with ptr := st.ptr + 1 }
              (st.ptr + ('[' :: key).length) = .ok (st', found findTag key) ∧
            Inv src emitted st' ∧ st'.ptr = st.ptr + ('[' :: key).length ∧
            st'.strip = st.strip := by
        apply lookupMem_spec hinv hfront
        · show st.ptr + 1 = _
          simp [hptr]
        · simp only [List.length_cons, List.length_append, List.length_nil, hptr]
          omega
        · exact hnulkey
      obtain ⟨c, u, hkeyc, hc⟩ : ∃ c u, key ++ ']' :: t = c :: u ∧ c ≠ ':' := by
        cases key with
        | nil => exact ⟨']', t, rfl, by decide⟩
        | cons c key => exact ⟨c, key ++ ']' :: t, rfl, by simpa using hcolon⟩
      rw [if_neg hcolon]
      refine ⟨_, ?_, left_found ?_ ?_ hst'⟩
      · rw [hat c u hkeyc, ok_bind, if_neg hc]
        exact hlookup
      · rw [hstrip, Bool.not_false, Bool.and_true]
      · show st'.ptr + 1 + t.length = src.length
        rw [hptr', hlength, hptr, List.length_cons]
        omega
  · have hnone : ¬ ']' ∈ '[' :: s := by
      rw [List.mem_cons, not_or]
      exact ⟨by decide, hclose⟩
    obtain ⟨st', hput, hinv, hptr', hstrip⟩ :
        ∃ st', put junk st 2 ['%', '['] = .ok st' ∧ Inv src (emitted ++ ['%', '[']) st' ∧
          st'.ptr = st.ptr ∧ st'.strip = st.strip :=
      put_spec h (by decide : 2 ≠ 0) (by decide : ['%', '['].length ≤ 2)
    rw [if_neg hnone, if_neg hclose, hput]
    refine ⟨(st', .next), rfl, ?_, ?_, ?_⟩
    · show st'.strip = (st.strip && !false)
      rw [hstrip, Bool.not_false, Bool.and_true]
    · show st'.ptr + 1 + s.length = src.length
      rw [hptr', hptr, hsrc, List.length_append, List.length_cons]
      omega
    · exact hinv

/-- A character is written. -/
theorem left_put {p : Piece} {rest text : List Char} (h : Inv src emitted st)
    (hptr : st.ptr + 1 + rest.length = src.length) (htext : text.length ≤ 1)
    (hclears : p.clears sub = false)
    (hemit : p.emit stripChars (tagString findTag) sub st.strip = text) :
    ∃ st', put junk st 1 text = .ok st' ∧
      Left stripChars (tagString findTag) sub src emitted st.strip p rest (st', .next) := by
  obtain ⟨st', hput, hinv, hptr', hstrip⟩ :
      ∃ st', put junk st 1 text = .ok st' ∧ Inv src (emitted ++ text) st' ∧ st'.ptr = st.ptr ∧
        st'.strip = st.strip :=
    put_spec h (by decide) htext
  refine ⟨st', hput, ?_, ?_, ?_⟩
  · show st'.strip = _
    rw [hstrip, hclears, Bool.not_false, Bool.and_true]
  · show st'.ptr + 1 + rest.length = src.length
    omega
  · show Inv src (emitted ++ p.emit stripChars (tagString findTag) sub st'.strip) st'
    rw [hstrip, hemit]
    exact hinv

/-- A value is found, or not. -/
theorem left_value {p : Piece} {rest : List Char} {verbatim strip : Bool}
    {value : Option (List Char)} (h : Inv src emitted st)
    (hptr : st.ptr + 1 + rest.length = src.length) (hstrip : st.strip = (strip && !p.clears sub))
    (hp : p.value (tagString findTag) sub = some (verbatim, value.getD [])) :
    Left stripChars (tagString findTag) sub src emitted strip p rest
      (st, value.elim .next .copy) := by
  cases value with
  | none =>
    refine ⟨hstrip, hptr, ?_⟩
    show Inv src (emitted ++ p.emit stripChars (tagString findTag) sub st.strip) st
    rw [Piece.emit, hp]
    dsimp only
    rw [Option.getD_none, written_nil, List.append_nil]
    exact h
  | some value =>
    refine ⟨hstrip, hptr, ?_, h⟩
    show written stripChars st.strip value = p.emit stripChars (tagString findTag) sub st.strip
    rw [Piece.emit, hp]
    rfl

/-- The rest of `case ':'`. -/
theorem colonMem_spec {front s : List Char} {ch : Char} (h : Inv src emitted st)
    (hsrc : src = front ++ ch :: s) (hptr : st.ptr = front.length) :
    ∃ r, (do
        let c ← fetch st.src st.ptr
        if c.isDigit then
          match sub c with
          | none => pure (st, .next)
          | some tptr => pure ({ st with strip := false }, .copy tptr)
        else
          let st ← put junk st 1 [c]
          pure (st, .next) : Except Fault (Scan × Action)) = .ok r ∧
      Left stripChars (tagString findTag) sub src emitted st.strip
        (reference (':' :: ch :: s)).1 (reference (':' :: ch :: s)).2 r := by
  have hfetch : fetch st.src st.ptr = .ok ch := by
    rw [h.src, hsrc, hptr, List.append_assoc]
    exact fetch_append front ch (s ++ ['\x00'])
  have hlength : st.ptr + 1 + s.length = src.length := by
    rw [hsrc, hptr, List.length_append, List.length_cons]
    omega
  rw [hfetch, ok_bind, reference]
  by_cases hdigit : ch.isDigit = true
  · rw [if_pos hdigit, if_pos hdigit]
    cases hsub : sub ch with
    | none =>
      have hvalue : (Piece.group true ch).value (tagString findTag) sub =
          some (true, (none : Option (List Char)).getD []) := by rw [Piece.value, hsub]
      refine ⟨_, rfl, left_value h hlength ?_ hvalue⟩
      rw [Piece.clears, hsub]
      simp
    | some tptr =>
      have hvalue : (Piece.group true ch).value (tagString findTag) sub =
          some (true, (some tptr).getD []) := by rw [Piece.value, hsub]
      have hcleared : Inv src emitted { st with strip := false } := ⟨h.src, h.dst, h.off, h.room⟩
      refine ⟨_, rfl, left_value hcleared hlength ?_ hvalue⟩
      rw [Piece.clears, hsub]
      simp
  · rw [if_neg hdigit, if_neg hdigit]
    obtain ⟨st', hput, hleft⟩ : ∃ st', put junk st 1 [ch] = .ok st' ∧
        Left stripChars (tagString findTag) sub src emitted st.strip (.escaped ch) s (st', .next) :=
      left_put h hlength (Nat.le_refl 1) rfl rfl
    rw [hput]
    exact ⟨(st', .next), rfl, hleft⟩

/-- What a `%` sequence leaves. -/
theorem percentMem_spec {pre s : List Char} (h : Inv src emitted st)
    (hsrc : src = pre ++ '%' :: s) (hptr : st.ptr = pre.length) (hnul : '\x00' ∉ src)
    (htorn : (reference s).1 ≠ .torn) :
    ∃ r, percentMem junk findTag sub st = .ok r ∧
      Left stripChars (tagString findTag) sub src emitted st.strip (reference s).1 (reference s).2
        r := by
  have hmoved : Inv src emitted { st with ptr := st.ptr + 1 } := ⟨h.src, h.dst, h.off, h.room⟩
  have hat : ∀ (c : Char) (u : List Char), s ++ ['\x00'] = c :: u →
      fetch st.src (st.ptr + 1) = .ok c := by
    intro c u hs
    have hfetch := fetch_append (pre ++ ['%']) c u
    rw [List.length_append, List.length_singleton] at hfetch
    rw [h.src, hsrc, hptr, ← hfetch, List.append_assoc, List.cons_append, hs]
    simp
  cases s with
  | nil =>
    refine ⟨({ st with ptr := st.ptr + 1 }, .out), ?_, ?_⟩
    · show (fetch st.src (st.ptr + 1) >>= _) = _
      rw [hat '\x00' [] rfl, ok_bind]
      rfl
    · refine ⟨?_, rfl, rfl, hmoved⟩
      show st.strip = (st.strip && !false)
      rw [Bool.not_false, Bool.and_true]
  | cons ch s =>
    have hch : ch ≠ '\x00' := by
      rintro rfl
      apply hnul
      rw [hsrc]
      simp
    have hlength : st.ptr + 1 + 1 + s.length = src.length := by
      rw [hsrc, hptr, List.length_append, List.length_cons, List.length_cons]
      omega
    rw [percentMem]
    dsimp only
    rw [hat ch (s ++ ['\x00']) rfl, ok_bind, if_neg hch]
    by_cases hpercent : ch = '%'
    · subst hpercent
      obtain ⟨st', hput, hleft⟩ : ∃ st', put junk { st with ptr := st.ptr + 1 } 1 ['%'] = .ok st' ∧
          Left stripChars (tagString findTag) sub src emitted st.strip .percent s (st', .next) :=
        left_put hmoved hlength (Nat.le_refl 1) rfl rfl
      rw [if_pos rfl, hput]
      exact ⟨(st', .next), rfl, hleft⟩
    rw [if_neg hpercent]
    by_cases hopen : ch = '['
    · subst hopen
      have hbase : src = (pre ++ ['%']) ++ '[' :: s := by
        rw [hsrc]
        simp
      rw [if_pos rfl]
      apply bracketMem_spec hmoved hbase
      · show st.ptr + 1 = (pre ++ ['%']).length
        rw [List.length_append, List.length_singleton, hptr]
      · exact hnul
    rw [if_neg hopen]
    by_cases hcolon : ch = ':'
    · subst hcolon
      rw [if_pos rfl]
      cases s with
      | nil => exact absurd rfl htorn
      | cons ch s =>
        have hfront : src = (pre ++ ['%', ':']) ++ ch :: s := by
          rw [hsrc]
          simp
        have hmoved' : Inv src emitted { st with ptr := st.ptr + 1 + 1 } :=
          ⟨h.src, h.dst, h.off, h.room⟩
        apply colonMem_spec hmoved' hfront
        show st.ptr + 1 + 1 = (pre ++ ['%', ':']).length
        rw [List.length_append, hptr]
        rfl
    have hreference : reference (ch :: s) =
        if ch.isDigit then (.group false ch, s) else (.alias ch, s) := by
      rw [reference]
      all_goals first | exact hpercent | exact hopen | simp [hcolon]
    have hstrip : st.strip = (st.strip && !false) := by rw [Bool.not_false, Bool.and_true]
    rw [if_neg hcolon, hreference]
    by_cases hdigit : ch.isDigit = true
    · rw [if_pos hdigit, if_pos hdigit]
      have hleft : Left stripChars (tagString findTag) sub src emitted st.strip (.group false ch) s
          ({ st with ptr := st.ptr + 1 }, (sub ch).elim .next .copy) :=
        left_value hmoved hlength hstrip rfl
      cases hsub : sub ch with
      | none =>
        rw [hsub] at hleft
        exact ⟨_, rfl, hleft⟩
      | some tptr =>
        rw [hsub] at hleft
        exact ⟨_, rfl, hleft⟩
    · rw [if_neg hdigit, if_neg hdigit]
      have hleft : Left stripChars (tagString findTag) sub src emitted st.strip (.alias ch) s
          ({ st with ptr := st.ptr + 1 },
            (((aliasOf ch).bind fun key => findTag key.toList).map cString).elim .next .copy) := by
        apply left_value hmoved hlength hstrip
        rw [Piece.value, Option.map_bind]
        rfl
      cases htag : (aliasOf ch).bind fun key => findTag key.toList with
      | none =>
        rw [htag] at hleft
        exact ⟨_, rfl, hleft⟩
      | some tptr =>
        rw [htag] at hleft
        exact ⟨_, rfl, hleft⟩

/-- A `%:` at the end takes the loop behind the terminator. -/
theorem percentMem_torn {pre : List Char} (h : Inv src emitted st)
    (hsrc : src = pre ++ ['%', ':']) (hptr : st.ptr = pre.length) :
    ∃ st', percentMem junk findTag sub st = .ok (st', .next) ∧ st'.src = st.src ∧
      st'.ptr = src.length := by
  have hmoved : Inv src emitted { st with ptr := st.ptr + 1 + 1 } := ⟨h.src, h.dst, h.off, h.room⟩
  have hcolon : fetch st.src (st.ptr + 1) = .ok ':' := by
    have hfetch := fetch_append (pre ++ ['%']) ':' ['\x00']
    rw [List.length_append, List.length_singleton] at hfetch
    rw [h.src, hsrc, hptr, ← hfetch]
    simp
  have hend : fetch st.src (st.ptr + 1 + 1) = .ok '\x00' := by
    have hfetch := fetch_append (pre ++ ['%', ':']) '\x00' []
    rw [List.length_append] at hfetch
    rw [h.src, hsrc, hptr, ← hfetch]
    rfl
  obtain ⟨st', hput, hinv, hptr', -⟩ :
      ∃ st', put junk { st with ptr := st.ptr + 1 + 1 } 1 ['\x00'] = .ok st' ∧
        Inv src (emitted ++ ['\x00']) st' ∧ st'.ptr = st.ptr + 1 + 1 ∧ st'.strip = st.strip :=
    put_spec hmoved (by decide) (Nat.le_refl 1)
  refine ⟨st', ?_, ?_, ?_⟩
  · rw [percentMem]
    dsimp only
    rw [hcolon, ok_bind, if_neg (by decide), if_neg (by decide), if_neg (by decide), if_pos rfl,
      hend, ok_bind, if_neg (by decide), hput]
    rfl
  · rw [hinv.src, h.src]
  · rw [hptr', hptr, hsrc, List.length_append]
    rfl

/-! ## The loop -/

theorem torn_iff {s : List Char} : (reference s).1 = .torn ↔ s = [':'] := by
  constructor
  · intro h
    unfold reference at h
    split at h
    · cases h
    · cases h
    · split_ifs at h
      rw [bracketed] at h
      split_ifs at h
    · rfl
    · split_ifs at h
    · split_ifs at h
  · rintro rfl
    rfl

/-- What the loop comes to, with some of the output already there. -/
def Loops (junk : ℕ → Char) (stripChars : List Char) (findTag : List Char → Option (List Char))
    (sub : Char → Option (List Char)) (fuel : ℕ) (src emitted : List Char) (st : Scan) :
    Option (List Char) → Prop
  | none => loop junk stripChars findTag sub fuel st = .error .read
  | some out => ∃ st', loop junk stripChars findTag sub fuel st = .ok st' ∧
      Inv src (emitted ++ out) st'

theorem Loops.map {fuel : ℕ} {text : List Char} {result : Option (List Char)}
    (h : Loops junk stripChars findTag sub fuel src (emitted ++ text) st result) :
    Loops junk stripChars findTag sub fuel src emitted st (result.map (text ++ ·)) := by
  cases result with
  | none => exact h
  | some out =>
    obtain ⟨st', hloop, hinv⟩ := h
    rw [List.append_assoc] at hinv
    exact ⟨st', hloop, hinv⟩

/-- The loop writes what the pieces give, or reads behind the template. -/
theorem loop_spec {fuel : ℕ} {pre rest : List Char} (h : Inv src emitted st)
    (hsrc : src = pre ++ rest) (hptr : st.ptr = pre.length) (hnul : '\x00' ∉ src)
    (hfuel : rest.length < fuel) :
    Loops junk stripChars findTag sub fuel src emitted st
      (expand stripChars (tagString findTag) sub st.strip (pieces rest)) := by
  induction fuel generalizing pre rest st emitted with
  | zero => omega
  | succ fuel ih =>
    have hfetch : ∀ (c : Char) (u : List Char), rest ++ ['\x00'] = c :: u →
        fetch st.src st.ptr = .ok c := by
      intro c u hrest
      rw [h.src, hsrc, hptr, List.append_assoc, hrest]
      exact fetch_append pre c u
    -- the next pass, with `text` written in this one
    have hpass : ∀ (st' : Scan) (text rest' : List Char), Inv src (emitted ++ text) st' →
        st'.ptr + 1 + rest'.length = src.length → rest' <:+ rest → rest'.length < fuel →
        Loops junk stripChars findTag sub fuel src emitted { st' with ptr := st'.ptr + 1 }
          ((expand stripChars (tagString findTag) sub st'.strip (pieces rest')).map
            (text ++ ·)) := by
      intro st' text rest' hinv hlength hsuffix hfuel'
      obtain ⟨pre', hpre'⟩ := hsuffix.trans ⟨pre, hsrc.symm⟩
      have hmoved : Inv src (emitted ++ text) { st' with ptr := st'.ptr + 1 } :=
        ⟨hinv.src, hinv.dst, hinv.off, hinv.room⟩
      refine Loops.map (ih hmoved hpre'.symm ?_ hfuel')
      show st'.ptr + 1 = pre'.length
      rw [← hpre', List.length_append] at hlength
      omega
    cases rest with
    | nil =>
      refine ⟨st, ?_, ?_⟩
      · rw [loop, hfetch '\x00' [] rfl, ok_bind, if_pos rfl]
        rfl
      · rw [List.append_nil]
        exact h
    | cons ch s =>
      have hch : ch ≠ '\x00' := by
        rintro rfl
        apply hnul
        rw [hsrc]
        exact List.mem_append_right pre List.mem_cons_self
      have hlength : st.ptr + 1 + s.length = src.length := by
        rw [hsrc, hptr, List.length_append, List.length_cons]
        omega
      rw [List.length_cons] at hfuel
      by_cases hpercent : ch = '%'
      · subst hpercent
        have hpasses : ∀ r : Scan × Action, percentMem junk findTag sub st = .ok r →
            loop junk stripChars findTag sub (fuel + 1) st =
              match r.2 with
              | .out => pure r.1
              | .next => loop junk stripChars findTag sub fuel { r.1 with ptr := r.1.ptr + 1 }
              | .copy value =>
                copyMem junk stripChars r.1 value >>= fun st =>
                  loop junk stripChars findTag sub fuel { st with ptr := st.ptr + 1 } := by
          intro r hcall
          rw [loop, hfetch '%' _ rfl, ok_bind, if_neg hch, if_neg (by decide), hcall, ok_bind]
        rw [pieces_percent, expand]
        by_cases htorn : (reference s).1 = .torn
        · obtain rfl := torn_iff.mp htorn
          obtain ⟨st', hcall, hsrc', hptr'⟩ :
              ∃ st', percentMem junk findTag sub st = .ok (st', .next) ∧ st'.src = st.src ∧
                st'.ptr = src.length := percentMem_torn h hsrc hptr
          obtain ⟨fuel, rfl⟩ : ∃ k, fuel = k + 1 := ⟨fuel - 1, by simp at hfuel; omega⟩
          have hbehind : fetch st'.src (st'.ptr + 1) = .error .read := by
            rw [hsrc', h.src, hptr', fetch, List.getElem?_eq_none (by simp)]
            rfl
          rw [if_pos htorn]
          show loop junk stripChars findTag sub (fuel + 1 + 1) st = .error .read
          rw [hpasses _ hcall]
          dsimp only
          rw [loop]
          dsimp only
          rw [hbehind, error_bind]
        · obtain ⟨⟨st', action⟩, hcall, hstrip, hleft⟩ :
              ∃ r, percentMem junk findTag sub st = .ok r ∧
                Left stripChars (tagString findTag) sub src emitted st.strip (reference s).1
                  (reference s).2 r := percentMem_spec h hsrc hptr hnul htorn
          have hsuffix : (reference s).2 <:+ '%' :: s :=
            (suffix_reference s).trans (List.suffix_cons _ _)
          have hshort := length_reference s
          have hloop := hpasses _ hcall
          dsimp only at hstrip hleft
          rw [if_neg htorn, ← hstrip]
          cases action with
          | out =>
            obtain ⟨hrest, hemit, hinv⟩ := hleft
            rw [hrest, hemit, pieces_nil, expand]
            refine ⟨st', hloop, ?_⟩
            show Inv src (emitted ++ []) st'
            rw [List.append_nil]
            exact hinv
          | next =>
            obtain ⟨hleft, hinv⟩ := hleft
            rw [Loops.eq_def, hloop]
            exact hpass st' _ _ hinv hleft hsuffix (by omega)
          | copy value =>
            obtain ⟨hleft, hemit, hinv⟩ := hleft
            obtain ⟨st'', hcopy, hinv', hptr', hstrip'⟩ :
                ∃ st'', copyMem junk stripChars st' value = .ok st'' ∧
                  Inv src (emitted ++ written stripChars st'.strip value) st'' ∧
                  st''.ptr = st'.ptr ∧ st''.strip = st'.strip := copyMem_spec hinv value
            dsimp only at hloop
            rw [hcopy, ok_bind] at hloop
            rw [Loops.eq_def, hloop, ← hemit, ← hstrip']
            rw [← hptr'] at hleft
            rw [← hstrip'] at hinv'
            exact hpass st'' _ _ hinv' hleft hsuffix (by omega)
      · obtain ⟨st', hput, hinv, hptr', hstrip⟩ :
            ∃ st', put junk st 1 [ch] = .ok st' ∧ Inv src (emitted ++ [ch]) st' ∧
              st'.ptr = st.ptr ∧ st'.strip = st.strip := put_spec h (by decide) (Nat.le_refl 1)
        have hloop : loop junk stripChars findTag sub (fuel + 1) st =
            loop junk stripChars findTag sub fuel { st' with ptr := st'.ptr + 1 } := by
          rw [loop, hfetch ch _ rfl, ok_bind, if_neg hch, if_pos hpercent, hput, ok_bind]
        have hclears : (Piece.char ch).clears sub = false := rfl
        rw [pieces_char hpercent, expand, if_neg (by simp), hclears, Bool.not_false, Bool.and_true]
        rw [← hptr'] at hlength
        rw [Loops.eq_def, hloop, ← hstrip]
        exact hpass st' [ch] s hinv hlength (List.suffix_cons ch s) (by omega)

/-! ## What is returned -/

/-- What `replace` comes to: it reads behind the template, or the template is as it was and the
output has a NUL at its end. -/
def Replaces (junk : ℕ → Char) (stripChars : List Char)
    (findTag : List Char → Option (List Char)) (sub : Char → Option (List Char))
    (src : List Char) : Option (List Char) → Prop
  | none => replaceMem junk stripChars findTag sub (src ++ ['\x00']) = .error .read
  | some out => ∃ r, replaceMem junk stripChars findTag sub (src ++ ['\x00']) = .ok r ∧
      r.template = src ++ ['\x00'] ∧ r.off = out.length ∧ At r.dst 0 (out ++ ['\x00'])

/-- In memory `replace` gives what it gives for lists. -/
theorem replaceMem_spec (hnul : '\x00' ∉ src) :
    Replaces junk stripChars findTag sub src
      (replaceWith stripChars (tagString findTag) sub src) := by
  rw [replaceWith_eq]
  cases hsrc : src with
  | nil =>
    refine ⟨⟨['\x00'], ['\x00'], 0⟩, rfl, rfl, rfl, ?_⟩
    intro i hi
    rw [Nat.zero_add]
    rfl
  | cons ch s =>
    have hch : ch ≠ '\x00' := by
      rintro rfl
      apply hnul
      rw [hsrc]
      exact List.mem_cons_self
    have hinit : Inv src [] (begun junk (src ++ ['\x00'])) := by
      refine ⟨rfl, nofun, rfl, ?_⟩
      show 0 < (resize junk 64 []).length
      rw [length_resize]
      decide
    have hloop : Loops junk stripChars findTag sub (src ++ ['\x00']).length src []
        (begun junk (src ++ ['\x00']))
        (expand stripChars (tagString findTag) sub true (pieces src)) :=
      loop_spec hinit (List.nil_append src).symm rfl hnul (by simp)
    have hfetch : fetch (src ++ ['\x00']) 0 = .ok ch := by
      rw [hsrc]
      rfl
    rw [← hsrc]
    cases hexpand : expand stripChars (tagString findTag) sub true (pieces src) with
    | none =>
      rw [hexpand] at hloop
      show replaceMem junk stripChars findTag sub (src ++ ['\x00']) = .error .read
      rw [replaceMem, hfetch, ok_bind, if_neg hch, hloop, error_bind]
    | some out =>
      rw [hexpand] at hloop
      obtain ⟨st, hloop, hinv⟩ := hloop
      rw [List.nil_append] at hinv
      obtain ⟨buf, hbuf, hat, hlong⟩ : ∃ buf, ensureFor junk st.dst st.off 1 = .ok buf ∧
          At buf 0 out ∧ st.off + 1 < buf.length :=
        ensureFor_spec hinv.dst hinv.off.symm hinv.room (by decide)
      obtain ⟨buf', hwrite⟩ := write_of_le buf ['\x00'] st.off (by simp; omega)
      have hstore : store buf st.off ['\x00'] = .ok buf' := by
        rw [store, hwrite, Option.elim_some]
      refine ⟨⟨st.src, buf', st.off⟩, ?_, hinv.src, hinv.off, ?_⟩
      · rw [replaceMem, hfetch, ok_bind, if_neg hch, hloop, ok_bind, hbuf, ok_bind, hstore, ok_bind]
        rfl
      · rw [At.append_iff]
        refine ⟨hat.frame hwrite (Or.inl ?_), ?_⟩
        · rw [hinv.off]
          omega
        · have hend := At.write hwrite
          rw [hinv.off] at hend
          rw [Nat.zero_add]
          exact hend

/-! ## Templates that are safe -/

/-- The group has no NUL in it. -/
def Piece.plain (sub : Char → Option (List Char)) : Piece → Bool
  | .group _ ch => (sub ch).all fun value => '\x00' ∉ value
  | _ => true

/-- The template does not end behind `%:`, and no group with a NUL is written as it is. -/
def intact (sub : Char → Option (List Char)) : Bool → List Piece → Bool
  | _, [] => true
  | strip, p :: ps =>
    p ≠ .torn && ((strip && !p.clears sub) || p.plain sub) && intact sub (strip && !p.clears sub) ps

theorem nul_not_mem_cString (value : List Char) : '\x00' ∉ cString value := by
  intro hmem
  simpa using List.mem_takeWhile_imp hmem

/-- A NUL can only come from a group. -/
theorem nul_not_mem_emit_iff {p : Piece} {strip : Bool} (htext : '\x00' ∉ p.text) :
    '\x00' ∉ p.emit stripChars (tagString findTag) sub strip ↔
      (strip || p.plain sub) = true := by
  have hstripped : ∀ value, '\x00' ∉ written stripChars true value := by
    intro value hmem
    rw [written, if_pos rfl, List.mem_filter] at hmem
    simpa using hmem.2
  have hclean : ∀ value, '\x00' ∉ value → '\x00' ∉ written stripChars strip value := by
    intro value hvalue
    cases strip with
    | true => exact hstripped value
    | false => exact hvalue
  have htag : ∀ tag : Option (List Char), '\x00' ∉ (tag.map cString).getD [] := by
    intro tag
    cases tag with
    | none => exact List.not_mem_nil
    | some value => exact nul_not_mem_cString value
  cases p with
  | tag verbatim key =>
    refine iff_of_true ?_ (by simp [Piece.plain])
    show '\x00' ∉ written stripChars strip _
    apply hclean
    split_ifs
    · exact List.not_mem_nil
    · exact htag _
  | «alias» ch =>
    refine iff_of_true ?_ (by simp [Piece.plain])
    show '\x00' ∉ written stripChars strip _
    apply hclean
    have hbind : (aliasOf ch).bind (fun key => tagString findTag key.toList) =
        ((aliasOf ch).bind fun key => findTag key.toList).map cString := by
      rw [Option.map_bind]
      rfl
    rw [hbind]
    exact htag _
  | group verbatim ch =>
    show '\x00' ∉ written stripChars strip ((sub ch).getD []) ↔ _
    rw [Piece.plain]
    cases strip with
    | true => exact iff_of_true (hstripped _) rfl
    | false =>
      cases sub ch with
      | none => simp [written]
      | some value => simp [written]
  | char ch => exact iff_of_true htext (by simp [Piece.plain])
  | percent => exact iff_of_true htext (by simp [Piece.plain])
  | opened => exact iff_of_true htext (by simp [Piece.plain])
  | escaped ch => exact iff_of_true htext (by simp [Piece.plain])
  | dangling => exact iff_of_true htext (by simp [Piece.plain])
  | torn => exact iff_of_true htext (by simp [Piece.plain])

theorem text_reference {s : List Char} (hs : '\x00' ∉ s) : '\x00' ∉ (reference s).1.text := by
  have hbracketed : ∀ s, (bracketed s).1.text = [] := by
    intro s
    rw [bracketed]
    split_ifs <;> rfl
  unfold reference
  split
  · exact List.not_mem_nil
  · show '\x00' ∉ ['%']
    decide
  · split_ifs
    · rw [hbracketed]
      exact List.not_mem_nil
    · show '\x00' ∉ ['%', '[']
      decide
  · exact List.not_mem_nil
  · next ch s =>
    have hch : '\x00' ≠ ch := by
      rintro rfl
      exact hs (by simp)
    split_ifs
    · exact List.not_mem_nil
    · show '\x00' ∉ [ch]
      rw [List.mem_singleton]
      exact hch
  · split_ifs <;> exact List.not_mem_nil

/-- A template without a NUL has none in its text. -/
theorem text_pieces {s : List Char} (hs : '\x00' ∉ s) : ∀ p ∈ pieces s, '\x00' ∉ p.text := by
  have hall : ∀ (n : ℕ) (s : List Char), s.length ≤ n → '\x00' ∉ s →
      ∀ p ∈ pieces s, '\x00' ∉ p.text := by
    intro n
    induction n with
    | zero =>
      intro s hn _
      rw [List.length_eq_zero_iff.mp (Nat.le_zero.mp hn)]
      nofun
    | succ n ih =>
      intro s hn hs
      cases s with
      | nil => nofun
      | cons ch s =>
        rw [List.length_cons] at hn
        rw [List.mem_cons, not_or] at hs
        by_cases hch : ch = '%'
        · subst hch
          have hlength := length_reference s
          rw [pieces_percent, List.forall_mem_cons]
          refine ⟨text_reference hs.2, ih (reference s).2 (by omega) ?_⟩
          exact fun hmem => hs.2 ((suffix_reference s).subset hmem)
        · rw [pieces_char hch, List.forall_mem_cons]
          refine ⟨?_, ih s (by omega) hs.2⟩
          show '\x00' ∉ [ch]
          rw [List.mem_singleton]
          exact hs.1
  exact hall s.length s (Nat.le_refl _) hs

theorem expand_intact_iff {strip : Bool} {ps : List Piece} (htext : ∀ p ∈ ps, '\x00' ∉ p.text) :
    (∃ out, expand stripChars (tagString findTag) sub strip ps = some out ∧ '\x00' ∉ out) ↔
      intact sub strip ps = true := by
  induction ps generalizing strip with
  | nil => simp [expand, intact]
  | cons p ps ih =>
    rw [List.forall_mem_cons] at htext
    rw [expand, intact, Bool.and_eq_true, Bool.and_eq_true, decide_eq_true_iff]
    by_cases htorn : p = .torn
    · simp [htorn]
    rw [if_neg htorn, ← ih htext.2, ← nul_not_mem_emit_iff htext.1]
    constructor
    · rintro ⟨out, hout, hnul⟩
      obtain ⟨rest, hrest, rfl⟩ := Option.map_eq_some_iff.mp hout
      rw [List.mem_append, not_or] at hnul
      exact ⟨⟨htorn, hnul.1⟩, rest, hrest, hnul.2⟩
    · rintro ⟨⟨-, hemit⟩, rest, hrest, hnul⟩
      refine ⟨_, by rw [hrest, Option.map_some], ?_⟩
      rw [List.mem_append, not_or]
      exact ⟨hemit, hnul⟩

/-- A template: a string, which has no NUL. -/
abbrev Template := { s : List Char // '\x00' ∉ s }

/-- `replace` returns, having read and written where it may; the template is as it was, and the
string it returns is all that it has written. -/
def Bounded (junk : ℕ → Char) (stripChars : List Char) (findTag : List Char → Option (List Char))
    (sub : Char → Option (List Char)) (src : Template) : Prop :=
  ∃ r, replaceMem junk stripChars findTag sub (src.val ++ ['\x00']) = .ok r ∧
    r.template = src.val ++ ['\x00'] ∧ strAt '\x00' r.dst 0 = some (r.dst.take r.off)

/-- A template is expanded safely just when it does not end behind `%:` and no group with a NUL is
written as it is. -/
theorem bounded_iff {α : Type} (m : Mail α) (rml : Rmlist) (src : Template) :
    Bounded junk stripChars findTag (submatch m rml) src ↔
      intact (submatch m rml) true (pieces src.val) = true := by
  have hintact : (∃ out, expand stripChars (tagString findTag) (submatch m rml) true
      (pieces src.val) = some out ∧ '\x00' ∉ out) ↔
      intact (submatch m rml) true (pieces src.val) = true :=
    expand_intact_iff (text_pieces src.property)
  have hspec : Replaces junk stripChars findTag (submatch m rml) src.val
      (replaceWith stripChars (tagString findTag) (submatch m rml) src.val) :=
    replaceMem_spec src.property
  rw [← hintact, ← replaceWith_eq]
  constructor
  · rintro ⟨r, hr, -, hstring⟩
    cases hout : replaceWith stripChars (tagString findTag) (submatch m rml) src.val with
    | none =>
      rw [hout, Replaces, hr] at hspec
      cases hspec
    | some out =>
      rw [hout] at hspec
      obtain ⟨r', hr', -, hoff, hat⟩ := hspec
      obtain rfl : r' = r := Except.ok.inj (hr'.symm.trans hr)
      refine ⟨out, rfl, ?_⟩
      have htake := (At.append_iff.mp hat).1.drop_eq
      rw [List.drop_zero, ← hoff] at htake
      rw [htake, strAt] at hstring
      split_ifs at hstring
      rw [← Option.some.inj hstring]
      intro hmem
      simpa using List.mem_takeWhile_imp hmem
  · rintro ⟨out, hout, hnul⟩
    rw [hout] at hspec
    obtain ⟨r, hr, htemplate, hoff, hat⟩ := hspec
    refine ⟨r, hr, htemplate, ?_⟩
    have htake := (At.append_iff.mp hat).1.drop_eq
    rw [List.drop_zero, ← hoff] at htake
    rw [At.strAt hat hnul, htake]

end

/-- `%:` at the end is read past; a NUL in a group cuts off what follows. -/
theorem not_bounded_sample :
    ¬ Bounded (fun _ => 'x') [] (fun _ => none) (submatch sampleMail sampleMatch)
        ⟨['%', ':'], by decide⟩ ∧
      ¬ Bounded (fun _ => 'x') [] (fun _ => none)
        (submatch { sampleMail with data := ['\x00'] } sampleMatch)
        ⟨['%', ':', '1', 'a'], by decide⟩ := by
  constructor
  · rintro ⟨r, hr, -⟩
    cases hr
  · rintro ⟨r, hr, -, hstring⟩
    obtain rfl := Except.ok.inj hr
    exact absurd hstring (by decide)

end Fdm.Replace
