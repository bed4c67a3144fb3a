import Fdm.Io.Readline

/-!
# What reading a stream loses

* `lossless_iff`: the lines of a stream do not depend on the chunks it arrives in and make up
  the stream again, except when the line end is CRLF and one byte alone follows the last line;
* `lastByte_lost` is a stream whose last byte is never read.
-/

namespace Fdm.Io

open Lib.Intake

/-- What was read accounts for the stream `s`: the lines with their line ends, and the piece
behind them, are `s`; or reading failed at a line that is too long with its line end. -/
def Accounts (eol s : List Char) (r : Reading) : Prop :=
  match r.error with
  | none => ∃ ls p, s = joined eol ls p ∧ (∀ l ∈ ls, ¬ eol <:+: l) ∧ ¬ eol <:+: p ∧
      r.lines = ls ++ (if p = [] then [] else [p])
  | some _ => ∃ ls l t, s = joined eol ls (l ++ t) ∧ (∀ l ∈ ls, ¬ eol <:+: l) ∧ ¬ eol <:+: l ∧
      (t = [] ∨ eol <+: t) ∧ r.lines = ls ∧ ioMaxlinelen < l.length + eol.length

/-- Whatever the chunks `s` arrives in, the same is read, and it accounts for `s`. -/
def Lossless (eol s : List Char) : Prop :=
  ∃ r, (∀ chunks last, chunks.flatten ++ last = s → session eol chunks last = some r) ∧
    Accounts eol s r

/-- One byte follows the last line of `s`, and no line is too long. -/
def LastByteAlone (s : List Char) : Prop :=
  ∃ ls c, s = joined ioCrlf ls [c] ∧
    ∀ l ∈ ls, ¬ ioCrlf <:+: l ∧ l.length + ioCrlf.length ≤ ioMaxlinelen

/-- The text up to the first terminator. -/
theorem exists_first {e : List Char} (he : e ≠ []) (s : List Char) :
    ∃ l t, s = l ++ t ∧ ¬ e <:+: l ∧ (t = [] ∨ e <+: t) := by
  cases hcut : (terminated e he s.length).cut s with
  | none =>
    have hfree := cut_terminated_none hcut
    rw [List.take_length] at hfree
    exact ⟨s, [], (List.append_nil s).symm, hfree, Or.inl rfl⟩
  | some q =>
    have hparts := cut_terminated_some hcut
    exact ⟨q.1, e ++ q.2, by rw [← List.append_assoc]; exact hparts.1, hparts.2.1,
      Or.inr (List.prefix_append e q.2)⟩

/-- A single byte behind the last line is not read. -/
theorem session_lastByte {ls : List (List Char)}
    (hls : ∀ l ∈ ls, ¬ ioCrlf <:+: l ∧ l.length + ioCrlf.length ≤ ioMaxlinelen) (c : Char)
    (chunks : List (List Char)) (last : List Char)
    (hs : chunks.flatten ++ last = joined ioCrlf ls [c]) :
    session ioCrlf chunks last = some ⟨ls, none⟩ := by
  have heol : Eol ioCrlf := Or.inr rfl
  have hcut : (cutter ioCrlf heol).cut [c] = none := by
    refine cut_terminated_of_absent fun h => ?_
    have := h.length_le
    rw [List.length_take, List.length_singleton] at this
    have : ioCrlf.length = 2 := rfl
    omega
  have hitems : (cutter ioCrlf heol).items (joined ioCrlf ls [c]) = (ls, [c]) := by
    have h := items_joined heol.plain hls [c]
    rw [cutter] at hcut
    rw [Cutter.items_none hcut, List.append_nil] at h
    exact h
  have hshort : [c].length < ioCrlf.length := Nat.one_lt_two
  have hfit : ¬ ioMaxlinelen ≤ [c].length := by
    rw [List.length_singleton]
    decide
  rw [session_eq heol, hs, hitems, lastPiece, if_pos (Or.inr hshort), failure, if_neg hfit,
    List.append_nil]

/-- A reading that misses the last byte does not account for the stream. -/
theorem not_accounts {eol : List Char} (ls : List (List Char)) (c : Char) :
    ¬ Accounts eol (joined eol ls [c]) ⟨ls, none⟩ := by
  rintro ⟨ls', p, hs, -, -, hlines⟩
  change ls = _ at hlines
  have hlen := congrArg List.length hs
  split at hlines
  · next hp =>
    rw [List.append_nil] at hlines
    rw [joined, joined, hlines, hp, List.append_cancel_left_eq] at hs
    cases hs
  · next hp =>
    -- the piece would be a line with its line end
    subst hlines
    simp only [joined, List.map_append, List.flatten_append, List.length_append,
      List.length_singleton, List.map_cons, List.map_nil, List.flatten_cons, List.flatten_nil,
      List.length_nil] at hlen
    omega

theorem lossless_of {eol : List Char} (heol : Eol eol) {s : List Char}
    (hcond : ¬ (eol = ioCrlf ∧ LastByteAlone s)) : Lossless eol s := by
  obtain ⟨ls, p, hitems⟩ : ∃ ls p, (cutter eol heol).items s = (ls, p) := ⟨_, _, rfl⟩
  have hs : s = joined eol ls p := by
    have h := eq_joined heol.plain.ne_nil ioMaxlinelen s
    rw [cutter] at hitems
    rwa [hitems] at h
  have hls : ∀ l ∈ ls, ¬ eol <:+: l ∧ l.length + eol.length ≤ ioMaxlinelen := by
    have h := piece_of_mem heol.plain.ne_nil ioMaxlinelen s
    rw [cutter] at hitems
    rwa [hitems] at h
  have hfree : ¬ eol <:+: p.take ioMaxlinelen := by
    have h := (cutter eol heol).cut_items s
    rw [hitems] at h
    exact cut_terminated_none h
  refine ⟨_, fun chunks last h => by rw [session_eq heol, h, hitems], ?_⟩
  by_cases hmax : ioMaxlinelen ≤ p.length
  · -- the line that `p` starts with has no line end within the limit
    obtain ⟨l, t, rfl, hl, ht⟩ := exists_first heol.plain.ne_nil p
    have hpos := List.length_pos_iff.mpr heol.plain.ne_nil
    have hlong : ioMaxlinelen < l.length + eol.length := by
      rcases ht with rfl | ⟨u, rfl⟩
      · rw [List.append_nil] at hmax
        omega
      · by_contra hle
        refine hfree ⟨l, u.take (ioMaxlinelen - (l ++ eol).length), ?_⟩
        have hfit : (l ++ eol).length ≤ ioMaxlinelen := by
          rw [List.length_append]
          omega
        rw [← List.append_assoc l, List.take_append, List.take_of_length_le hfit]
    rw [lastPiece, if_pos (Or.inl hmax), failure, if_pos hmax, List.append_nil]
    exact ⟨ls, l, t, hs, fun x hx => (hls x hx).1, hl, ht, rfl, hlong⟩
  · rw [List.take_of_length_le (by omega)] at hfree
    rw [failure, if_neg hmax]
    refine ⟨ls, p, hs, fun x hx => (hls x hx).1, hfree, ?_⟩
    show ls ++ lastPiece eol p = _
    congr 1
    by_cases hp : p = []
    · have hpos := List.length_pos_iff.mpr heol.plain.ne_nil
      rw [if_pos hp, lastPiece, if_pos (Or.inr (by rw [hp]; exact hpos))]
    · have hone : ¬ p.length < eol.length := fun hshort => by
        have hlen := heol.length_le
        have hpos := List.length_pos_iff.mpr hp
        have hcrlf : eol = ioCrlf := by
          rcases heol with rfl | rfl
          · have : ioLf.length = 1 := rfl
            omega
          · rfl
        obtain ⟨c, rfl⟩ := List.length_eq_one_iff.mp (show p.length = 1 by omega)
        exact hcond ⟨hcrlf, ls, c, by rw [hs, hcrlf], hcrlf ▸ hls⟩
      rw [if_neg hp, lastPiece, if_neg (by omega)]

/-- Reading line by line is independent of the chunks and loses nothing, but for a last byte
alone behind a CRLF. -/
theorem lossless_iff {eol : List Char} (heol : Eol eol) (s : List Char) :
    Lossless eol s ↔ ¬ (eol = ioCrlf ∧ LastByteAlone s) := by
  constructor
  · rintro ⟨r, hread, haccounts⟩ ⟨rfl, ls, c, rfl, hls⟩
    have hr := hread [] (joined ioCrlf ls [c]) rfl
    rw [session_lastByte hls c [] (joined ioCrlf ls [c]) rfl, Option.some.injEq] at hr
    rw [← hr] at haccounts
    exact not_accounts ls c haccounts
  · exact lossless_of heol

theorem lossless_iff_lf : Lossless ioLf ['a', '\n', 'b'] :=
  (lossless_iff (Or.inl rfl) _).mpr fun h => absurd h.1 (by decide)

/-- The last byte is never read. -/
theorem lastByte_lost : ¬ Lossless ioCrlf ['a', '\r', '\n', 'b'] := by
  rintro ⟨r, hread, haccounts⟩
  have hr := hread [['a', '\r'], ['\n', 'b']] [] rfl
  have hls : ∀ l ∈ [['a']], ¬ ioCrlf <:+: l ∧ l.length + ioCrlf.length ≤ ioMaxlinelen := by decide
  rw [session_lastByte hls 'b' [['a', '\r'], ['\n', 'b']] [] rfl, Option.some.injEq] at hr
  rw [← hr] at haccounts
  exact not_accounts [['a']] 'b' haccounts

end Fdm.Io
