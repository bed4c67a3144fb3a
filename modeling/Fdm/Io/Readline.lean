import Fdm.Io.Defs

/-!
# The lines of a stream

What the buffer holds is a queue: `fill` puts bytes behind it and `readline2` cuts lines off
its front, as the reader `lineCutter` of terminated pieces does. The memory behind it does not
show.

* `readline2_line`, `readline2_over`, `readline2_wait` and `readline2_last` are the four ends
  of a call of `readline2`;
* `drain_eq` and `feed_eq` say what all calls give;
* `session_eq` says what a stream gives, and chunks are not in it.
-/

namespace Fdm

open Lib.Intake

/-! ## The buffer is a queue -/

namespace Buffer

variable {b b' : Buffer} {n : ℕ} {data : List Char}

@[simp] theorem length_contents (b : Buffer) : b.contents.length = b.size := by
  have := b.fits
  rw [contents, List.length_take, List.length_drop]
  omega

/-- Moving the contents to the front keeps them. -/
theorem contents_compact (b : Buffer) : b.compact.contents = b.contents := by
  unfold compact
  split
  · rfl
  · show ((b.contents ++ b.base.drop b.size).drop 0).take b.size = b.contents
    rw [List.drop_zero]
    exact List.take_left' (length_contents b)

@[simp] theorem size_compact (b : Buffer) : b.compact.size = b.size := by
  unfold compact
  split <;> rfl

theorem off_compact (b : Buffer) : b.compact.off = 0 := by
  unfold compact
  split
  · next h => exact h
  · rfl

/-- A block that grows keeps what it has. -/
theorem prefix_enlarge (n : ℕ) (base : List Char) (want : ℕ) :
    base <+: enlarge n base want := by
  induction n generalizing base with
  | zero => exact List.prefix_refl _
  | succ n ih =>
    rw [enlarge]
    split
    · exact (List.prefix_append _ _).trans (ih _)
    · exact List.prefix_refl _

/-- Doubling gets there. -/
theorem want_le_enlarge {base : List Char} {want : ℕ} (hpos : 0 < base.length)
    (hn : want ≤ n + base.length) : want ≤ (enlarge n base want).length := by
  induction n generalizing base with
  | zero =>
    rw [enlarge]
    omega
  | succ n ih =>
    rw [enlarge]
    split
    · refine ih ?_ ?_ <;> rw [List.length_append, List.length_replicate] <;> omega
    · omega

/-- A buffer begins empty. -/
theorem create_spec (hn : n ≠ 0) : ∃ b, create n = some b ∧ b.contents = [] :=
  ⟨_, dif_neg hn, List.take_zero⟩

/-- Room is made behind the contents. -/
theorem ensure_spec (b : Buffer) (hn : n ≠ 0) :
    ∃ b', b.ensure n = some b' ∧ b'.contents = b.contents ∧ n ≤ b'.free := by
  unfold ensure
  rw [if_neg hn]
  by_cases hfree : n ≤ b.free
  · exact ⟨b, if_pos hfree, rfl, hfree⟩
  · rw [if_neg hfree]
    have hfits := b.compact.fits
    refine ⟨_, rfl, ?_, ?_⟩
    · show ((enlarge (b.compact.size + n) b.compact.base (b.compact.size + n)).drop
        b.compact.off).take b.compact.size = b.contents
      obtain ⟨t, ht⟩ := prefix_enlarge (b.compact.size + n) b.compact.base (b.compact.size + n)
      rw [← ht, List.drop_append_of_le_length (by omega),
        List.take_append_of_le_length (by rw [List.length_drop]; omega), ← contents_compact b]
      rfl
    · have hlen : b.compact.size + n
          ≤ (enlarge (b.compact.size + n) b.compact.base (b.compact.size + n)).length :=
        want_le_enlarge b.compact.space_pos (by omega)
      show n ≤ (enlarge (b.compact.size + n) b.compact.base (b.compact.size + n)).length
        - b.compact.off - b.compact.size
      have hoff := off_compact b
      omega

/-- Bytes go behind the contents. -/
theorem add_spec (hne : data ≠ []) (hfree : data.length ≤ b.free) :
    ∃ b', b.add data = some b' ∧ b'.contents = b.contents ++ data := by
  refine ⟨_, dif_pos ⟨hne, hfree⟩, ?_⟩
  have hfits := b.fits
  show ((b.base.take (b.off + b.size) ++ data
    ++ b.base.drop (b.off + b.size + data.length)).drop b.off).take (b.size + data.length) = _
  have hfront : (b.base.take (b.off + b.size)).drop b.off = b.contents := by
    rw [List.drop_take, contents, Nat.add_sub_cancel_left]
  have hlen : (b.contents ++ data).length = b.size + data.length := by
    rw [List.length_append, length_contents]
  rw [List.append_assoc, List.drop_append_of_le_length (by rw [List.length_take]; omega),
    hfront, ← List.append_assoc, List.take_left' hlen]

/-- Bytes are taken from the front. -/
theorem remove_spec (hn : n ≠ 0) (hsize : n ≤ b.size) :
    ∃ b', b.remove n = some b' ∧ b'.contents = b.contents.drop n := by
  refine ⟨_, dif_neg (by omega), ?_⟩
  show (b.base.drop (b.off + n)).take (b.size - n) = _
  rw [contents, List.drop_take, List.drop_drop]

/-- Bytes are read from the front. -/
theorem read_spec (hn : n ≠ 0) (hsize : n ≤ b.size) :
    ∃ b', b.read n = some (b.contents.take n, b') ∧ b'.contents = b.contents.drop n := by
  obtain ⟨b', hremove, hcontents⟩ := remove_spec hn hsize
  exact ⟨b', by rw [read, hremove, Option.map_some], hcontents⟩

end Buffer

namespace Io

/-! ## Filling it -/

/-- What does not change when bytes arrive or lines are read. -/
structure Same (io io' : Io) : Prop where
  eol : io'.eol = io.eol
  closed : io'.closed = io.closed

theorem Same.trans {io io' io'' : Io} (h : Same io io') (h' : Same io' io'') : Same io io'' :=
  ⟨h'.eol.trans h.eol, h'.closed.trans h.closed⟩

variable {io io' : Io}

/-- What `fill` returns when no read fails. -/
def filled : Behind → Filled
  | .nothing => .success
  | .eof => .closed
  | .failure _ => .error

/-- The bytes that are ready go behind the others. -/
theorem fill_spec {n : ℕ} (io : Io) (ready : List Char) (behind : Behind)
    (hbehind : ∀ cause, behind ≠ .failure cause) (hn : ready.length < n) :
    ∃ io', fill n io ready behind = some (filled behind, io') ∧ Same io io' ∧
      io'.error = io.error ∧ io'.rd.contents = io.rd.contents ++ ready := by
  induction n generalizing io ready with
  | zero => omega
  | succ n ih =>
    obtain ⟨rd, hensure, hcontents, hfree⟩ := io.rd.ensure_spec (n := ioWatermark) (by decide)
    rw [fill, hensure]
    simp only [Option.bind_eq_bind, Option.bind_some]
    by_cases hgot : ready.take rd.free = []
    · rw [if_pos hgot]
      have hready : ready = [] := by
        rcases List.take_eq_nil_iff.mp hgot with h | h
        · rw [h] at hfree
          exact absurd hfree (by decide)
        · exact h
      refine ⟨{ io with rd := rd }, ?_, ⟨rfl, rfl⟩, rfl, ?_⟩
      · cases behind with
        | nothing => rfl
        | eof => rfl
        | failure cause => exact absurd rfl (hbehind cause)
      · rw [hready, List.append_nil, hcontents]
    · rw [if_neg hgot]
      obtain ⟨rd', hadd, hcontents'⟩ :=
        Buffer.add_spec hgot (show _ ≤ rd.free by rw [List.length_take]; omega)
      rw [hadd, Option.bind_some]
      -- something was read, so less is ready for the next read
      have hlen : (ready.take rd.free).length ≠ 0 := fun h => hgot (List.eq_nil_of_length_eq_zero h)
      obtain ⟨io', hfill, hsame, herror, hrest⟩ :=
        ih { io with rd := rd' } (ready.drop (ready.take rd.free).length) (by
          rw [List.length_take] at hlen
          rw [List.length_drop, List.length_take]
          omega)
      refine ⟨io', hfill, ⟨hsame.eol, hsame.closed⟩, herror, ?_⟩
      rw [hrest]
      show rd'.contents ++ _ = _
      rw [hcontents', hcontents, List.append_assoc]
      congr 1
      rw [List.length_take]
      by_cases hle : rd.free ≤ ready.length
      · rw [Nat.min_eq_left hle, List.take_append_drop]
      · rw [Nat.min_eq_right (by omega), List.drop_length, List.append_nil,
          List.take_of_length_le (by omega)]

/-- What is ready goes into the buffer. -/
theorem poll_spec (herror : io.error = none) (hclosed : io.closed = false) (ready : List Char) :
    ∃ io', io.poll ready .nothing = some io' ∧ Same io io' ∧ io'.error = none ∧
      io'.rd.contents = io.rd.contents ++ ready := by
  obtain ⟨io', hfill, hsame, herror', hcontents⟩ :=
    fill_spec io ready .nothing (fun _ => nofun) (Nat.lt_succ_self ready.length)
  refine ⟨io', ?_, hsame, herror'.trans herror, hcontents⟩
  rw [poll, if_neg (by simp [herror, hclosed]), hfill]
  rfl

/-- The end of the stream comes behind the last bytes. -/
theorem poll_eof_spec (herror : io.error = none) (hclosed : io.closed = false)
    (ready : List Char) :
    ∃ io', io.poll ready .eof = some io' ∧ io'.eol = io.eol ∧ io'.closed = true ∧
      io'.error = none ∧ io'.rd.contents = io.rd.contents ++ ready := by
  obtain ⟨io', hfill, hsame, herror', hcontents⟩ :=
    fill_spec io ready .eof (fun _ => nofun) (Nat.lt_succ_self ready.length)
  refine ⟨{ io' with closed := true }, ?_, hsame.eol, rfl, herror'.trans herror, hcontents⟩
  rw [poll, if_neg (by simp [herror, hclosed]), hfill]
  rfl

/-- An io that has failed is left alone. -/
theorem poll_error (herror : io.error.isSome) (ready : List Char) (behind : Behind) :
    io.poll ready behind = some io := if_pos (Or.inl herror)

/-! ## Reading a line -/

/-- The two line ends that an io is created with. -/
def Eol (eol : List Char) : Prop := eol = ioLf ∨ eol = ioCrlf

theorem Eol.plain {eol : List Char} (h : Eol eol) : Plain eol := by
  rcases h with rfl | rfl
  · exact ⟨'\n', [], rfl, by decide⟩
  · exact ⟨'\r', ['\n'], rfl, by decide⟩

theorem Eol.length_le {eol : List Char} (h : Eol eol) : eol.length ≤ 2 := by
  rcases h with rfl | rfl <;> decide

/-- `io_readline2` looks for the first end of a line. -/
theorem findEol_eq {eol : List Char} (hne : eol ≠ []) (w : List Char) :
    findEol eol w = firstAt eol w := by
  induction w with
  | nil => rfl
  | cons c s ih =>
    rw [findEol, firstAt, ih]
    by_cases hhead : eol.head? = some c
    · rw [if_pos hhead]
      by_cases hlen : (c :: s).length < eol.length
      · -- what is left is too short for the line end, and so are its suffixes
        have hnone : firstAt eol s = none := firstAt_of_absent fun hin => by
          have := hin.length_le
          rw [List.length_cons] at hlen
          omega
        have hpre : ¬ eol <+: c :: s := fun h => by
          have := h.length_le
          omega
        rw [if_pos hlen, if_neg hpre, hnone, Option.map_none]
      · rw [if_neg hlen]
        by_cases htake : (c :: s).take eol.length = eol
        · rw [if_pos htake, if_pos (htake ▸ List.take_prefix _ _)]
        · rw [if_neg htake, if_neg fun h => htake (List.prefix_iff_eq_take.mp h).symm]
    · have hpre : ¬ eol <+: c :: s := by
        intro h
        cases eol with
        | nil => exact hne rfl
        | cons a e => exact hhead (by rw [(List.cons_prefix_cons.mp h).1, List.head?_cons])
      rw [if_neg hhead, if_neg hpre]

/-- What `io_readline2` does to the bytes in the buffer. -/
def cutter (eol : List Char) (heol : Eol eol) : Cutter Char (List Char) :=
  terminated eol heol.plain.ne_nil ioMaxlinelen

section Calls

variable {line rest : List Char} (heol : Eol io.eol)

/-- A line is cut off where its end is, in the part that is looked at. -/
theorem cut_eq : (cutter io.eol heol).cut io.rd.contents
    = (findEol io.eol (io.rd.contents.take (min io.rd.size ioMaxlinelen))).map fun n =>
      (io.rd.contents.take n, io.rd.contents.drop (n + io.eol.length)) := by
  have htake : io.rd.contents.take (min io.rd.size ioMaxlinelen)
      = io.rd.contents.take ioMaxlinelen := by
    by_cases h : io.rd.size ≤ ioMaxlinelen
    · rw [Nat.min_eq_left h, List.take_of_length_le (by simp),
        List.take_of_length_le (by simpa using h)]
    · rw [Nat.min_eq_right (by omega)]
  rw [findEol_eq heol.plain.ne_nil, htake]
  rfl

/-- There is a line. -/
theorem readline2_line (herror : io.error = none)
    (hcut : (cutter io.eol heol).cut io.rd.contents = some (line, rest)) :
    ∃ io', io.readline2 = some (some line, io') ∧ Same io io' ∧ io'.error = none ∧
      io'.rd.contents = rest := by
  have hparts := cut_terminated_some hcut
  have hsize := congrArg List.length hparts.1
  rw [List.length_append, List.length_append, Buffer.length_contents] at hsize
  rw [cut_eq heol] at hcut
  obtain ⟨n, hfind, heq⟩ := Option.map_eq_some_iff.mp hcut
  obtain ⟨rfl, rfl⟩ := Prod.mk.injEq .. ▸ heq
  have heol_pos := List.length_pos_iff.mpr heol.plain.ne_nil
  have hn : n + io.eol.length ≤ io.rd.size := by
    rw [List.length_take, List.length_drop, Buffer.length_contents] at hsize
    omega
  rw [readline2, if_neg (by simp [herror]), if_neg (by omega), hfind]
  by_cases hzero : n = 0
  · obtain ⟨rd, hremove, hcontents⟩ :=
      io.rd.remove_spec (n := io.eol.length) (by omega) (by omega)
    refine ⟨{ io with rd := rd }, ?_, ⟨rfl, rfl⟩, herror, ?_⟩
    · simp [hzero, hremove]
    · rw [hzero, Nat.zero_add]
      exact hcontents
  · obtain ⟨rd, hread, hcontents⟩ := io.rd.read_spec hzero (by omega)
    have hsize' : rd.size = io.rd.size - n := by
      rw [← Buffer.length_contents, hcontents, List.length_drop, Buffer.length_contents]
    obtain ⟨rd', hremove, hcontents'⟩ :=
      rd.remove_spec (n := io.eol.length) (by omega) (by omega)
    refine ⟨{ io with rd := rd' }, ?_, ⟨rfl, rfl⟩, herror, ?_⟩
    · simp [hzero, hread, hremove]
    · show rd'.contents = _
      rw [hcontents', hcontents, List.drop_drop]

/-- No line has come to its end. -/
theorem find_none (hcut : (cutter io.eol heol).cut io.rd.contents = none) :
    findEol io.eol (io.rd.contents.take (min io.rd.size ioMaxlinelen)) = none := by
  rw [cut_eq heol] at hcut
  exact Option.map_eq_none_iff.mp hcut

/-- The error of a line that is too long. -/
def overlong : List Char := "io: maximum line length exceeded".toList

/-- There is no end of line where it would have to be. -/
theorem readline2_over (herror : io.error = none)
    (hcut : (cutter io.eol heol).cut io.rd.contents = none) (hmax : ioMaxlinelen ≤ io.rd.size) :
    io.readline2 = some (none, { io with error := some overlong }) := by
  have hlen := heol.length_le
  have htwo : 2 ≤ ioMaxlinelen := by decide
  rw [readline2, if_neg (by simp [herror]), if_neg (by omega), find_none heol hcut]
  exact if_pos (Nat.min_eq_right hmax)

/-- There is no end of line yet. -/
theorem readline2_wait (herror : io.error = none)
    (hcut : (cutter io.eol heol).cut io.rd.contents = none) (hmax : io.rd.size < ioMaxlinelen)
    (hopen : io.closed = false ∨ io.rd.size < io.eol.length) :
    io.readline2 = some (none, io) := by
  rw [readline2, if_neg (by simp [herror])]
  by_cases hused : io.rd.size < io.eol.length
  · exact if_pos hused
  · rcases hopen with hopen | hopen
    · rw [if_neg hused, find_none heol hcut]
      show ite _ _ _ = _
      rw [if_neg (by omega), if_pos (by simp [hopen])]
    · exact absurd hopen hused

/-- The stream is over, and what is left is a line. -/
theorem readline2_last (herror : io.error = none)
    (hcut : (cutter io.eol heol).cut io.rd.contents = none) (hmax : io.rd.size < ioMaxlinelen)
    (hclosed : io.closed = true) (hused : io.eol.length ≤ io.rd.size) :
    ∃ io', io.readline2 = some (some io.rd.contents, io') ∧ Same io io' ∧ io'.error = none ∧
      io'.rd.contents = [] := by
  have heol_pos := List.length_pos_iff.mpr heol.plain.ne_nil
  obtain ⟨rd, hread, hcontents⟩ := io.rd.read_spec (n := io.rd.size) (by omega) (Nat.le_refl _)
  refine ⟨{ io with rd := rd }, ?_, ⟨rfl, rfl⟩, herror, ?_⟩
  · rw [readline2, if_neg (by simp [herror]), if_neg (by omega), find_none heol hcut]
    show ite _ _ _ = _
    rw [if_neg (by omega), if_neg (by simp [hclosed]), hread,
      List.take_of_length_le (by simp)]
    rfl
  · show rd.contents = []
    rw [hcontents, List.drop_eq_nil_of_le (by simp)]

/-- Behind an error no line is read. -/
theorem readline2_error (herror : io.error.isSome) : io.readline2 = some (none, io) :=
  if_pos herror

end Calls

/-! ## Reading all there is -/

/-- The error when `rest` is what no line can be cut off. -/
def failure (rest : List Char) : Option (List Char) :=
  if ioMaxlinelen ≤ rest.length then some overlong else none

/-- The lines that the end of the stream makes of `rest`. -/
def lastPiece (eol rest : List Char) : List (List Char) :=
  if ioMaxlinelen ≤ rest.length ∨ rest.length < eol.length then [] else [rest]

/-- Reading ends where there is no line. -/
theorem readlines_null {n : ℕ} (h : io.readline2 = some (none, io')) :
    readlines (n + 1) io = some ([], io') := by
  rw [readlines, h]
  rfl

/-- One line, and then the others. -/
theorem readlines_line {n : ℕ} {line : List Char} (h : io.readline2 = some (some line, io')) :
    readlines (n + 1) io = (readlines n io').map fun r => (line :: r.1, r.2) := by
  rw [readlines, h]
  simp only [Option.bind_eq_bind, Option.bind_some]
  cases readlines n io' <;> rfl

/-- All calls of `readline2` until it gives `NULL`. -/
theorem readlines_eq {n : ℕ} (io : Io) (heol : Eol io.eol) (hn : io.rd.size + 2 ≤ n)
    (herror : io.error = none) :
    ∃ io', readlines n io = some
        (((cutter io.eol heol).items io.rd.contents).1 ++
          (if io.closed then lastPiece io.eol ((cutter io.eol heol).items io.rd.contents).2
            else []), io') ∧
      Same io io' ∧ io'.error = failure ((cutter io.eol heol).items io.rd.contents).2 ∧
      (io.closed = false → io'.rd.contents = ((cutter io.eol heol).items io.rd.contents).2) := by
  induction n generalizing io with
  | zero => omega
  | succ n ih =>
    cases hcut : (cutter io.eol heol).cut io.rd.contents with
    | some q =>
      -- one line less in the buffer, and the others as before
      obtain ⟨line, rest⟩ := q
      obtain ⟨io', hread, hsame, herror', hcontents⟩ := readline2_line heol herror hcut
      have hlt := (cutter io.eol heol).shorter hcut
      rw [Buffer.length_contents, ← hcontents, Buffer.length_contents] at hlt
      obtain ⟨io'', hlines, hsame', herror'', hrest⟩ :=
        ih io' (hsame.eol ▸ heol) (by omega) herror'
      have hitems : (cutter io'.eol (hsame.eol ▸ heol)).items io'.rd.contents
          = (cutter io.eol heol).items rest := by
        rw [hcontents]
        simp only [hsame.eol]
      rw [hitems] at hlines herror'' hrest
      rw [hsame.closed, hsame.eol] at hlines
      rw [readlines_line hread, hlines, Cutter.items_some hcut]
      exact ⟨io'', rfl, hsame.trans hsame', herror'', fun h => hrest (hsame.closed.trans h)⟩
    | none =>
      rw [Cutter.items_none hcut, List.nil_append]
      by_cases hmax : ioMaxlinelen ≤ io.rd.size
      · have hover : ioMaxlinelen ≤ io.rd.contents.length := by rwa [Buffer.length_contents]
        refine ⟨{ io with error := some overlong }, ?_, ⟨rfl, rfl⟩, ?_, fun _ => rfl⟩
        · rw [readlines_null (readline2_over heol herror hcut hmax), lastPiece,
            if_pos (Or.inl hover), ite_self]
        · exact (if_pos hover).symm
      · have hfit : ¬ ioMaxlinelen ≤ io.rd.contents.length := by rwa [Buffer.length_contents]
        have hok : failure io.rd.contents = none := if_neg hfit
        by_cases hwait : io.closed = false ∨ io.rd.size < io.eol.length
        · refine ⟨io, ?_, ⟨rfl, rfl⟩, herror.trans hok.symm, fun _ => rfl⟩
          rw [readlines_null (readline2_wait heol herror hcut (by omega) hwait)]
          rcases hwait with hopen | hshort
          · rw [if_neg (by simp [hopen])]
          · rw [lastPiece, if_pos (Or.inr (by rwa [Buffer.length_contents])), ite_self]
        · have hclosed : io.closed = true := by
            cases hc : io.closed with
            | true => rfl
            | false => exact absurd (Or.inl hc) hwait
          have hused : io.eol.length ≤ io.rd.size := by omega
          obtain ⟨io', hread, hsame, herror', hcontents⟩ :=
            readline2_last heol herror hcut (by omega) hclosed hused
          -- the call behind the last piece finds nothing
          have hempty : io'.rd.size = 0 := by
            rw [← Buffer.length_contents, hcontents, List.length_nil]
          have hcut' : (cutter io'.eol (hsame.eol ▸ heol)).cut io'.rd.contents = none := by
            rw [hcontents]
            rfl
          have heol_pos := List.length_pos_iff.mpr heol.plain.ne_nil
          have hnull : io'.readline2 = some (none, io') := by
            refine readline2_wait (hsame.eol ▸ heol) herror' hcut' ?_ (Or.inr ?_)
            · rw [hempty]
              decide
            · rw [hempty, hsame.eol]
              exact heol_pos
          refine ⟨io', ?_, hsame, herror'.trans hok.symm, fun h => by simp [h] at hclosed⟩
          cases n with
          | zero => omega
          | succ n =>
            rw [readlines_line hread, readlines_null hnull, if_pos hclosed, lastPiece,
              if_neg (by rw [Buffer.length_contents]; omega)]
            rfl

/-! ## Reading a stream -/

/-- The io with `rest` behind the lines that were read. Once reading has failed it is no longer
filled, so `rest` may be longer than what is in the buffer. -/
structure Holds (io : Io) (heol : Eol io.eol) (rest : List Char) : Prop where
  cut : (cutter io.eol heol).cut rest = none
  error : io.error = failure rest
  contents : io.error = none → io.rd.contents = rest

/-- A line that is too long is an error. -/
theorem failure_isSome {rest : List Char} : (failure rest).isSome ↔ ioMaxlinelen ≤ rest.length := by
  unfold failure
  split <;> simp [*]

/-- A chunk arrives and its lines are read. -/
theorem arrive {rest : List Char} (heol : Eol io.eol) (hopen : io.closed = false)
    (h : Holds io heol rest) (chunk : List Char) :
    ∃ io₁ io₂, io.poll chunk .nothing = some io₁ ∧
      drain io₁ = some (((cutter io.eol heol).items (rest ++ chunk)).1, io₂) ∧
      ∃ hsame : Same io io₂,
        Holds io₂ (hsame.eol ▸ heol) ((cutter io.eol heol).items (rest ++ chunk)).2 := by
  by_cases herror : io.error = none
  · obtain ⟨io₁, hpoll, hsame, herror₁, hcontents⟩ := poll_spec herror hopen chunk
    rw [h.contents herror] at hcontents
    obtain ⟨io₂, hlines, hsame', herror₂, hrest⟩ :=
      readlines_eq io₁ (hsame.eol ▸ heol) (Nat.le_refl _) herror₁
    have hitems : (cutter io₁.eol (hsame.eol ▸ heol)).items io₁.rd.contents
        = (cutter io.eol heol).items (rest ++ chunk) := by
      rw [hcontents]
      simp only [hsame.eol]
    have hopen₁ : io₁.closed = false := hsame.closed.trans hopen
    rw [hitems] at hlines herror₂ hrest
    rw [if_neg (by simp [hopen₁]), List.append_nil] at hlines
    refine ⟨io₁, io₂, hpoll, hlines, hsame.trans hsame', ?_, herror₂, fun _ => hrest hopen₁⟩
    simp only [(hsame.trans hsame').eol]
    exact Cutter.cut_items _
  · -- reading has failed, and what arrives now is not looked at
    have hsome : io.error.isSome := Option.isSome_iff_ne_none.mpr herror
    have hmax : ioMaxlinelen ≤ rest.length := failure_isSome.mp (h.error ▸ hsome)
    have hcut : (cutter io.eol heol).cut (rest ++ chunk) = none :=
      cut_terminated_stuck h.cut hmax chunk
    have hmax' : ioMaxlinelen ≤ (rest ++ chunk).length := by
      rw [List.length_append]
      omega
    rw [Cutter.items_none hcut]
    refine ⟨io, io, poll_error hsome chunk .nothing, readlines_null (readline2_error hsome),
      ⟨rfl, rfl⟩, hcut, ?_, fun h => absurd h herror⟩
    rw [h.error, failure, if_pos hmax, failure, if_pos hmax']

/-- Reading the lines after every chunk gives the lines of the chunks put together. -/
theorem feed_eq {rest : List Char} (heol : Eol io.eol) (hopen : io.closed = false)
    (h : Holds io heol rest) (chunks : List (List Char)) :
    ∃ io', feed io chunks
        = some (((cutter io.eol heol).items (rest ++ chunks.flatten)).1, io') ∧
      ∃ hsame : Same io io',
        Holds io' (hsame.eol ▸ heol) ((cutter io.eol heol).items (rest ++ chunks.flatten)).2 := by
  induction chunks generalizing io rest with
  | nil =>
    rw [List.flatten_nil, List.append_nil, Cutter.items_none h.cut]
    exact ⟨io, rfl, ⟨rfl, rfl⟩, h⟩
  | cons chunk chunks ih =>
    obtain ⟨io₁, io₂, hpoll, hdrain, hsame, hholds⟩ := arrive heol hopen h chunk
    obtain ⟨io₃, hfeed, hsame', hholds'⟩ :=
      ih (hsame.eol ▸ heol) (hsame.closed.trans hopen) hholds
    simp only [hsame.eol] at hfeed hholds'
    have hitems := (cutter io.eol heol).items_append (rest ++ chunk) chunks.flatten
    rw [List.flatten_cons, ← List.append_assoc, hitems]
    refine ⟨io₃, ?_, hsame.trans hsame', hholds'⟩
    rw [feed, hpoll]
    simp only [Option.bind_eq_bind, Option.bind_some, hdrain, hfeed]

/-- The last bytes arrive, with the end of the stream behind them. -/
theorem finish {rest : List Char} (heol : Eol io.eol) (hopen : io.closed = false)
    (h : Holds io heol rest) (last : List Char) :
    ∃ io₁ io₂, io.poll last .eof = some io₁ ∧
      drain io₁ = some (((cutter io.eol heol).items (rest ++ last)).1 ++
        lastPiece io.eol ((cutter io.eol heol).items (rest ++ last)).2, io₂) ∧
      io₂.error = failure ((cutter io.eol heol).items (rest ++ last)).2 := by
  by_cases herror : io.error = none
  · obtain ⟨io₁, hpoll, heol₁, hclosed, herror₁, hcontents⟩ := poll_eof_spec herror hopen last
    rw [h.contents herror] at hcontents
    obtain ⟨io₂, hlines, -, herror₂, -⟩ :=
      readlines_eq io₁ (heol₁ ▸ heol) (Nat.le_refl _) herror₁
    have hitems : (cutter io₁.eol (heol₁ ▸ heol)).items io₁.rd.contents
        = (cutter io.eol heol).items (rest ++ last) := by
      rw [hcontents]
      simp only [heol₁]
    rw [hitems] at hlines herror₂
    rw [if_pos hclosed, heol₁] at hlines
    exact ⟨io₁, io₂, hpoll, hlines, herror₂⟩
  · have hsome : io.error.isSome := Option.isSome_iff_ne_none.mpr herror
    have hmax : ioMaxlinelen ≤ rest.length := failure_isSome.mp (h.error ▸ hsome)
    have hcut : (cutter io.eol heol).cut (rest ++ last) = none :=
      cut_terminated_stuck h.cut hmax last
    have hmax' : ioMaxlinelen ≤ (rest ++ last).length := by
      rw [List.length_append]
      omega
    rw [Cutter.items_none hcut, lastPiece, if_pos (Or.inl hmax')]
    refine ⟨io, io, poll_error hsome last .eof, readlines_null (readline2_error hsome), ?_⟩
    rw [h.error, failure, if_pos hmax, failure, if_pos hmax']

/-- What is read depends on the stream, and not on the chunks it arrives in. -/
theorem session_eq {eol : List Char} (heol : Eol eol) (chunks : List (List Char))
    (last : List Char) :
    session eol chunks last =
      some
        { lines :=
            ((cutter eol heol).items (chunks.flatten ++ last)).1 ++
              lastPiece eol ((cutter eol heol).items (chunks.flatten ++ last)).2
          error := failure ((cutter eol heol).items (chunks.flatten ++ last)).2 } := by
  obtain ⟨rd, hcreate, hempty⟩ := Buffer.create_spec (n := ioBlocksize) (by decide)
  have hstart : Holds { rd := rd, eol := eol } heol [] := ⟨rfl, rfl, fun _ => hempty⟩
  obtain ⟨io, hfeed, hsame, hholds⟩ := feed_eq heol rfl hstart chunks
  obtain ⟨io₁, io₂, hpoll, hdrain, herror⟩ :=
    finish (hsame.eol ▸ heol) (hsame.closed.trans rfl) hholds last
  have hsame_eol : io.eol = eol := hsame.eol
  simp only [hsame_eol] at hdrain herror
  have hitems := (cutter eol heol).items_append chunks.flatten last
  rw [session, create, hcreate]
  simp only [Option.map_some, Option.bind_eq_bind, Option.bind_some, hfeed, hpoll, hdrain, herror,
    List.nil_append, hitems, List.append_assoc]

end Io

end Fdm
