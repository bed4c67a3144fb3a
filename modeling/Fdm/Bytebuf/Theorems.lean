import Fdm.Bytebuf.Defs

/-!
# Buffers are sequences

In a buffer whose data is inside of its block each call ends the program or does what it is for,
except for two: `buffer_add` behind an offset, and `buffer_delete_range` near the end of `size_t`.

* `ensure_spec`: how room is made;
* `refines_iff`: when a call does what it is for;
* `fifo_iff`: when all calls of a run do.
-/

namespace Fdm.Bytebuf

open Lib.Memory Fdm.Xmalloc
open Lib.Runs (exec)

/-! ## The bytes of a buffer -/

section

variable {c : Libc} {b : Buf}

namespace Buf

/-- The contents are as long as the size says. -/
theorem length_contents (h : Inv b) : b.contents.length = b.size.toNat := by
  have hfits := h.fits
  rw [contents, List.length_take, List.length_drop, h.block]
  omega

theorem length_front (h : Inv b) : b.front.length = b.off.toNat := by
  have hfits := h.fits
  rw [front, List.length_take, h.block]
  omega

theorem length_back (h : Inv b) : b.back.length = b.space.toNat - (b.off.toNat + b.size.toNat) := by
  rw [back, List.length_drop, h.block]

/-- The contents stand in the block at the offset. -/
theorem at_contents (h : Inv b) : At b.base b.off.toNat b.contents := by
  intro i hi
  rw [length_contents h] at hi
  rw [contents, List.getElem?_take_of_lt hi, List.getElem?_drop]

/-- What stands at the offset is the contents. -/
theorem contents_eq {s : List Char} (h : At b.base b.off.toNat s) (hs : s.length = b.size.toNat) :
    b.contents = s := by
  rw [contents, ← hs, h.drop_eq]

/-- No difference in it wraps. -/
theorem toNat_free (h : Inv b) :
    b.free.toNat = b.space.toNat - b.off.toNat - b.size.toNat := by
  have hfits := h.fits
  have hoff : (b.space - b.off).toNat = b.space.toNat - b.off.toNat := toNat_sub_of_le (by omega)
  rw [free, toNat_sub_of_le (by omega), hoff]

end Buf

/-! ## Making room -/

/-- `memmove` inside the block: what was at the source is at the destination, and all else stays. -/
theorem memmove_spec (mem : List Char) (dst src n : UInt64)
    (hsrc : src.toNat + n.toNat ≤ mem.length) (hdst : dst.toNat + n.toNat ≤ mem.length) :
    ∃ mem', memmove mem dst src n = .ok mem' ∧ mem'.length = mem.length ∧
      (∀ s k, At mem (src.toNat + k) s → k + s.length ≤ n.toNat → At mem' (dst.toNat + k) s) ∧
      ∀ s off, At mem off s → off + s.length ≤ dst.toNat ∨ dst.toNat + n.toNat ≤ off →
        At mem' off s := by
  by_cases hn : n = 0
  · refine ⟨mem, by rw [memmove, if_pos hn], rfl, ?_, fun s off hs _ => hs⟩
    intro s k _ hlen i hi
    rw [hn] at hlen
    simp only [UInt64.toNat_zero] at hlen
    omega
  · obtain ⟨mem', hmove⟩ := move_of_le mem dst.toNat src.toNat n.toNat hsrc hdst
    refine ⟨mem', by rw [memmove, if_neg hn, hmove]; rfl, length_move hmove, ?_, ?_⟩
    · intro s k hs hlen
      exact hs.move hmove hlen
    · intro s off hs hdisjoint
      exact hs.frame_move hmove hdisjoint

/-- The data is moved to the front of the block. -/
theorem compact_spec (h : Inv b) :
    ∃ b', b.compact = .ok b' ∧ Inv b' ∧ b'.off = 0 ∧ b'.size = b.size ∧ b'.space = b.space ∧
      b'.contents = b.contents := by
  have hfits := h.fits
  have hblock := h.block
  have hzero : (0 : UInt64).toNat = 0 := rfl
  unfold Buf.compact
  split_ifs with hoff hsize
  · obtain ⟨mem, hmove, hlength, hmoved, -⟩ :=
      memmove_spec b.base 0 b.off b.size (by omega) (by omega)
    rw [hmove]
    refine ⟨{ b with base := mem, off := 0 }, rfl, ⟨hlength.trans hblock, ?_, h.pos⟩, rfl, rfl, rfl,
      ?_⟩
    · show (0 : UInt64).toNat + b.size.toNat ≤ b.space.toNat
      omega
    · have hat := hmoved b.contents 0 (Buf.at_contents h) (by rw [Buf.length_contents h]; omega)
      exact Buf.contents_eq hat (Buf.length_contents h)
  · -- nothing is in it
    have hempty : b.size.toNat = 0 := by
      rw [UInt64.lt_iff_toNat_lt] at hsize
      omega
    refine ⟨{ b with off := 0 }, rfl, ⟨hblock, ?_, h.pos⟩, rfl, rfl, rfl, ?_⟩
    · show (0 : UInt64).toNat + b.size.toNat ≤ b.space.toNat
      omega
    · rw [Buf.contents, Buf.contents, hempty, List.take_zero, List.take_zero]
  · refine ⟨b, rfl, h, ?_, rfl, rfl, rfl⟩
    rw [UInt64.lt_iff_toNat_lt] at hoff
    rw [← UInt64.toNat_inj]
    omega

/-- Room is made, and the contents are as they were. -/
theorem ensure_spec (h : Inv b) (size : UInt64) :
    Sound (fun b' => Inv b' ∧ b'.contents = b.contents ∧ b'.size = b.size ∧
      b'.off.toNat + b'.size.toNat + size.toNat ≤ b'.space.toNat) (b.ensure c size) := by
  unfold Buf.ensure
  split_ifs with hzero hfree
  · trivial
  · have hfits := h.fits
    rw [UInt64.le_iff_toNat_le, Buf.toNat_free h] at hfree
    exact ⟨h, rfl, rfl, by omega⟩
  · obtain ⟨b', hcompact, hinv, hoff, hsize, hspace, hcontents⟩ := compact_spec h
    have hfits := hinv.fits
    rw [hcompact, Except.bind]
    split_ifs with hmax
    · trivial
    · have hdouble := double_spec c (fun space => space < b'.size + size) 65 hinv.pos
        (Nat.le_of_eq hinv.block.symm) (by have hpos := hinv.pos; omega)
      cases hres : double c (fun space => space < b'.size + size) 65 b'.base b'.space with
      | error e =>
        obtain rfl := hdouble.of_error hres
        trivial
      | ok r =>
        obtain ⟨hlarge, hgrown⟩ := hdouble.of_ok hres
        have hle := hgrown.le
        have hpos := hinv.pos
        rw [decide_eq_false_iff_not, UInt64.not_lt, UInt64.le_iff_toNat_le, toNat_add_of_le hmax]
          at hlarge
        have hzero' : b'.off.toNat = 0 := by
          rw [hoff]
          rfl
        refine ⟨⟨hgrown.exact hinv.block, ?_, ?_⟩, ?_, hsize, ?_⟩
        · show b'.off.toNat + b'.size.toNat ≤ r.2.toNat
          omega
        · show 0 < r.2.toNat
          omega
        · have hat := hgrown.keeps _ _ (Buf.at_contents hinv)
            (by rw [Buf.length_contents hinv]; omega)
          rw [← hcontents]
          exact Buf.contents_eq hat (Buf.length_contents hinv)
        · show b'.off.toNat + b'.size.toNat + size.toNat ≤ r.2.toNat
          omega

/-! ## The calls -/

/-- `buffer_clear` empties the queue. -/
theorem refines_clear (h : Inv b) : Refines c b .clear := by
  have hpos := h.pos
  have hzero : (0 : UInt64).toNat = 0 := rfl
  refine ⟨⟨h.block, ?_, hpos⟩, ?_, rfl⟩
  · show (0 : UInt64).toNat + (0 : UInt64).toNat ≤ b.space.toNat
    omega
  · show (b.base.drop (0 : UInt64).toNat).take (0 : UInt64).toNat = []
    rw [hzero, List.take_zero]

/-- A call that copies nothing out. -/
theorem refines_iff_sound {op : Call} {r : Except Stop Buf}
    (hcall : call c b op = r.map fun b' => (b', [])) :
    Refines c b op ↔
      Sound (fun b' => Inv b' ∧ op.op.Does b.front b.contents b.back b'.contents []) r := by
  rw [Refines, hcall]
  cases r with
  | ok b' => exact Iff.rfl
  | error e =>
    cases e with
    | fatal => exact Iff.rfl
    | fault => exact Iff.rfl
    | stuck => exact Iff.rfl

/-- `buffer_ensure` leaves it as it is. -/
theorem refines_ensure (h : Inv b) (size : UInt64) : Refines c b (.ensure size) := by
  rw [refines_iff_sound rfl]
  refine (ensure_spec h size).mono ?_
  rintro b' ⟨hinv, hcontents, -, -⟩
  exact ⟨hinv, hcontents, rfl⟩

/-- `buffer_reverse_add` takes bytes off the end. -/
theorem refines_reverseAdd (h : Inv b) (size : UInt64) : Refines c b (.reverseAdd size) := by
  have hfits := h.fits
  rw [refines_iff_sound rfl]
  unfold Buf.reverseAdd
  split_ifs with hzero hlarge
  · trivial
  · trivial
  · have hle := toNat_le_of_not_lt hlarge
    have hsize := toNat_sub_of_le hle
    have hlength := Buf.length_contents h
    refine ⟨⟨h.block, ?_, h.pos⟩, ?_, ?_, rfl⟩
    · show b.off.toNat + (b.size - size).toNat ≤ b.space.toNat
      omega
    · omega
    · show (b.base.drop b.off.toNat).take (b.size - size).toNat =
        b.contents.take (b.contents.length - size.toNat)
      rw [hsize, hlength, Buf.contents, List.take_take]
      congr 1
      omega

/-- What is left behind the first bytes. -/
theorem contents_remove (h : Inv b) {size : UInt64} (hle : size.toNat ≤ b.size.toNat) :
    (b.base.drop (b.off + size).toNat).take (b.size - size).toNat = b.contents.drop size.toNat := by
  have hfits := h.fits
  have hmax := b.space.toNat_lt
  have hoff : (b.off + size).toNat = b.off.toNat + size.toNat := toNat_add_of_lt (by omega)
  have hsize : (b.size - size).toNat = b.size.toNat - size.toNat :=
    toNat_sub_of_le hle
  rw [hoff, hsize, Buf.contents, List.drop_take, List.drop_drop]

theorem inv_remove (h : Inv b) {size : UInt64} (hle : size.toNat ≤ b.size.toNat) :
    Inv { b with size := b.size - size, off := b.off + size } := by
  have hfits := h.fits
  have hmax := b.space.toNat_lt
  have hsize : (b.size - size).toNat = b.size.toNat - size.toNat :=
    toNat_sub_of_le hle
  refine ⟨h.block, ?_, h.pos⟩
  show (b.off + size).toNat + (b.size - size).toNat ≤ b.space.toNat
  rw [hsize, toNat_add_of_lt (by omega)]
  omega

/-- `buffer_remove` takes bytes in front away. -/
theorem refines_remove (h : Inv b) (size : UInt64) : Refines c b (.remove size) := by
  rw [refines_iff_sound rfl]
  unfold Buf.remove
  split_ifs with hzero hlarge
  · trivial
  · trivial
  · have hle := toNat_le_of_not_lt hlarge
    refine ⟨inv_remove h hle, ?_, contents_remove h hle, rfl⟩
    rw [Buf.length_contents h]
    exact hle

/-- `buffer_read` hands them out. -/
theorem refines_read (h : Inv b) (size : UInt64) : Refines c b (.read size) := by
  have hfits := h.fits
  have hblock := h.block
  unfold Refines call Buf.read
  dsimp only
  split_ifs with hzero hlarge
  · trivial
  · trivial
  · have hle := toNat_le_of_not_lt hlarge
    rw [Lib.Memory.read, if_pos (by omega)]
    dsimp only
    rw [Buf.remove, if_neg hzero, if_neg hlarge]
    refine ⟨inv_remove h hle, ?_, contents_remove h hle, ?_⟩
    · rw [Buf.length_contents h]
      exact hle
    · show (b.base.drop b.off.toNat).take size.toNat = b.contents.take size.toNat
      rw [Buf.contents, List.take_take]
      congr 1
      omega

/-- `buffer_reverse_remove` takes in bytes that are in front. -/
theorem refines_reverseRemove (h : Inv b) (size : UInt64) : Refines c b (.reverseRemove size) := by
  have hfits := h.fits
  have hblock := h.block
  have hmax := b.space.toNat_lt
  rw [refines_iff_sound rfl]
  unfold Buf.reverseRemove
  split_ifs with hzero hlarge
  · trivial
  · trivial
  · have hle := toNat_le_of_not_lt hlarge
    have hoff := toNat_sub_of_le hle
    have hsize : (b.size + size).toNat = b.size.toNat + size.toNat := toNat_add_of_lt (by omega)
    have hlength := Buf.length_front h
    have hshift : b.off.toNat - size.toNat + size.toNat = b.off.toNat := by omega
    have hcount : b.off.toNat - (b.off.toNat - size.toNat) = size.toNat := by omega
    refine ⟨⟨hblock, ?_, h.pos⟩, ?_, ?_, rfl⟩
    · show (b.off - size).toNat + (b.size + size).toNat ≤ b.space.toNat
      omega
    · omega
    · show (b.base.drop (b.off - size).toNat).take (b.size + size).toNat =
        b.front.drop (b.front.length - size.toNat) ++ b.contents
      rw [hoff, hsize, hlength, Nat.add_comm b.size.toNat, List.take_add, List.drop_drop, hshift,
        Buf.front, List.drop_take, hcount, Buf.contents]

/-- `buffer_add` is right where so many bytes are free, or its check stops it. -/
theorem refines_add_iff (h : Inv b) (size : UInt64) :
    Refines c b (.add size) ↔ size ≤ b.free ∨ b.space - b.size < size := by
  have hfits := h.fits
  have hmax := b.space.toNat_lt
  have hfree := Buf.toNat_free h
  rw [refines_iff_sound rfl]
  unfold Buf.add
  split_ifs with hzero hlarge
  · rw [hzero]
    exact iff_of_true trivial (Or.inl (UInt64.le_iff_toNat_le.2 (Nat.zero_le _)))
  · exact iff_of_true trivial (Or.inr hlarge)
  · have hle := toNat_le_of_not_lt hlarge
    have hsub : (b.space - b.size).toNat = b.space.toNat - b.size.toNat :=
      toNat_sub_of_le (by omega)
    have hsize : (b.size + size).toNat = b.size.toNat + size.toNat := toNat_add_of_lt (by omega)
    rw [or_iff_left hlarge, UInt64.le_iff_toNat_le, hfree]
    constructor
    · -- the data would not be inside of the block
      rintro ⟨hinv, -⟩
      have hinside : b.off.toNat + (b.size + size).toNat ≤ b.space.toNat := hinv.fits
      omega
    · intro hroom
      refine ⟨⟨h.block, ?_, h.pos⟩, ?_, ?_, rfl⟩
      · show b.off.toNat + (b.size + size).toNat ≤ b.space.toNat
        omega
      · rw [Buf.length_back h]
        omega
      · show (b.base.drop b.off.toNat).take (b.size + size).toNat =
          b.contents ++ b.back.take size.toNat
        rw [hsize, List.take_add, Buf.contents, Buf.back, List.drop_drop]

/-- Bytes of a block, wherever they stand. -/
theorem at_slice (mem : List Char) (off n : ℕ) (h : off + n ≤ mem.length) :
    At mem off ((mem.drop off).take n) ∧ ((mem.drop off).take n).length = n := by
  have hread : Lib.Memory.read mem off n = some ((mem.drop off).take n) := by
    rw [Lib.Memory.read, if_pos h]
  exact at_of_read hread

/-- `memmove` can only fault. -/
theorem memmove_error {mem : List Char} {dst src n : UInt64} {e : Stop}
    (h : memmove mem dst src n = .error e) : e = .fault := by
  unfold memmove at h
  split_ifs at h
  cases hmove : move mem dst.toNat src.toNat n.toNat with
  | none =>
    rw [hmove] at h
    exact (Except.error.inj h).symm
  | some mem' =>
    rw [hmove] at h
    cases h

/-- What `buffer_insert_range` moves, when there is room for it. -/
theorem insert_spec (h : Inv b) {base size : UInt64} (hbase : base.toNat ≤ b.size.toNat)
    (hroom : b.off.toNat + b.size.toNat + size.toNat ≤ b.space.toNat) :
    ∃ mem, memmove b.base (b.off + base + size) (b.off + base) (b.size - base) = .ok mem ∧
      Inv { b with base := mem, size := b.size + size } ∧
      ∃ gap, gap.length = size.toNat ∧ Buf.contents { b with base := mem, size := b.size + size } =
        b.contents.take base.toNat ++ gap ++ b.contents.drop base.toNat := by
  have hblock := h.block
  have hmax := b.space.toNat_lt
  have hsrc : (b.off + base).toNat = b.off.toNat + base.toNat := toNat_add_of_lt (by omega)
  have hdst : (b.off + base + size).toNat = b.off.toNat + base.toNat + size.toNat := by
    rw [toNat_add_of_lt (by omega), hsrc]
  have hn : (b.size - base).toNat = b.size.toNat - base.toNat := toNat_sub_of_le hbase
  have hadd : (b.size + size).toNat = b.size.toNat + size.toNat := toNat_add_of_lt (by omega)
  obtain ⟨mem, hmove, hlength, hmoved, hframe⟩ :=
    memmove_spec b.base (b.off + base + size) (b.off + base) (b.size - base) (by omega) (by omega)
  have hcount := Buf.length_contents h
  -- the block holds what stood in front, the gap, and what was moved
  have hat := Buf.at_contents h
  have hfirst := hframe _ _ (hat.take base.toNat) (Or.inl (by rw [List.length_take]; omega))
  have hlast := hmoved (b.contents.drop base.toNat) 0 (by rw [hsrc]; exact hat.drop (by omega))
    (by rw [List.length_drop]; omega)
  rw [Nat.add_zero, hdst, Nat.add_assoc] at hlast
  obtain ⟨hgap, hgaplen⟩ := at_slice mem (b.off.toNat + base.toNat) size.toNat (by omega)
  refine ⟨mem, hmove, ⟨hlength.trans hblock, ?_, h.pos⟩, _, hgaplen, Buf.contents_eq ?_ ?_⟩
  · show b.off.toNat + (b.size + size).toNat ≤ b.space.toNat
    omega
  · show At mem b.off.toNat _
    rw [At.append_iff, At.append_iff, List.length_append, List.length_take, hgaplen,
      Nat.min_eq_left (by omega)]
    exact ⟨⟨hfirst, hgap⟩, hlast⟩
  · show _ = (b.size + size).toNat
    rw [List.length_append, List.length_append, List.length_take, List.length_drop, hgaplen]
    omega

/-- `buffer_insert_range` puts bytes between. -/
theorem refines_insertRange (h : Inv b) (base size : UInt64) :
    Refines c b (.insertRange base size) := by
  rw [refines_iff_sound rfl]
  unfold Buf.insertRange
  split_ifs with hzero hbase
  · trivial
  · trivial
  · have hle := toNat_le_of_not_lt hbase
    have hensure := ensure_spec (c := c) h size
    cases hres : b.ensure c size with
    | error e =>
      obtain rfl := hensure.of_error hres
      trivial
    | ok b' =>
      obtain ⟨hinv, hcontents, hsize, hroom⟩ := hensure.of_ok hres
      obtain ⟨mem, hmove, hinv', hgap⟩ :=
        insert_spec hinv (show base.toNat ≤ b'.size.toNat by rwa [hsize]) hroom
      show Sound _ ((memmove b'.base (b'.off + base + size) (b'.off + base) (b'.size - base)).map _)
      rw [hmove]
      refine ⟨hinv', ?_, ?_, rfl⟩
      · rwa [Buf.length_contents h]
      · rwa [hcontents] at hgap

/-- What `buffer_delete_range` moves, when the end of the range is in the data. -/
theorem delete_spec (h : Inv b) {base size : UInt64}
    (hrange : base.toNat + size.toNat ≤ b.size.toNat) :
    ∃ mem, memmove b.base (b.off + base) (b.off + base + size) (b.size - base - size) = .ok mem ∧
      Inv { b with base := mem, size := b.size - size } ∧
      Buf.contents { b with base := mem, size := b.size - size } =
        b.contents.take base.toNat ++ b.contents.drop (base.toNat + size.toNat) := by
  have hfits := h.fits
  have hblock := h.block
  have hmax := b.space.toNat_lt
  have hdst : (b.off + base).toNat = b.off.toNat + base.toNat := toNat_add_of_lt (by omega)
  have hsrc : (b.off + base + size).toNat = b.off.toNat + (base.toNat + size.toNat) := by
    rw [toNat_add_of_lt (by omega), hdst, Nat.add_assoc]
  have hbase : (b.size - base).toNat = b.size.toNat - base.toNat := toNat_sub_of_le (by omega)
  have hn : (b.size - base - size).toNat = b.size.toNat - base.toNat - size.toNat := by
    rw [toNat_sub_of_le (by omega), hbase]
  have hsize : (b.size - size).toNat = b.size.toNat - size.toNat := toNat_sub_of_le (by omega)
  obtain ⟨mem, hmove, hlength, hmoved, hframe⟩ :=
    memmove_spec b.base (b.off + base) (b.off + base + size) (b.size - base - size) (by omega)
      (by omega)
  have hcount := Buf.length_contents h
  -- what stood in front stays, and what stood behind the range is moved to its place
  have hat := Buf.at_contents h
  have hfirst := hframe _ _ (hat.take base.toNat) (Or.inl (by rw [List.length_take]; omega))
  have hlast := hmoved (b.contents.drop (base.toNat + size.toNat)) 0
    (by rw [hsrc]; exact hat.drop (by omega)) (by rw [List.length_drop]; omega)
  rw [Nat.add_zero, hdst] at hlast
  refine ⟨mem, hmove, ⟨hlength.trans hblock, ?_, h.pos⟩, Buf.contents_eq ?_ ?_⟩
  · show b.off.toNat + (b.size - size).toNat ≤ b.space.toNat
    omega
  · show At mem b.off.toNat _
    rw [At.append_iff, List.length_take, Nat.min_eq_left (by omega)]
    exact ⟨hfirst, hlast⟩
  · show _ = (b.size - size).toNat
    rw [List.length_append, List.length_take, List.length_drop]
    omega

/-- `buffer_delete_range` is right where its sum does not wrap, or its check stops it. -/
theorem refines_deleteRange_iff (h : Inv b) (base size : UInt64) :
    Refines c b (.deleteRange base size) ↔
      base.toNat + size.toNat < 2 ^ 64 ∨ b.size < size := by
  have hmax := b.size.toNat_lt
  have hcount := Buf.length_contents h
  rw [refines_iff_sound rfl]
  unfold Buf.deleteRange
  split_ifs with hzero hlarge hrange
  · have hbase := base.toNat_lt
    have hnone : size.toNat = 0 := by
      rw [hzero]
      rfl
    exact iff_of_true trivial (Or.inl (by omega))
  · exact iff_of_true trivial (Or.inr hlarge)
  · -- a sum that wraps is less than `size`
    refine iff_of_true trivial (Or.inl ?_)
    have hle := toNat_le_of_not_lt hlarge
    have hbase := base.toNat_lt
    rw [UInt64.lt_iff_toNat_lt, UInt64.toNat_add] at hrange
    omega
  · have hsum := toNat_le_of_not_lt hrange
    rw [or_iff_left hlarge]
    constructor
    · intro hsound
      cases hmove : memmove b.base (b.off + base) (b.off + base + size) (b.size - base - size) with
      | error e =>
        obtain rfl := memmove_error hmove
        rw [hmove] at hsound
        exact hsound.elim
      | ok mem =>
        rw [hmove] at hsound
        have hinside : base.toNat + size.toNat ≤ b.contents.length := hsound.2.1
        omega
    · intro hwrap
      rw [toNat_add_of_lt hwrap] at hsum
      obtain ⟨mem, hmove, hinv, hcontents⟩ := delete_spec h hsum
      rw [hmove]
      refine ⟨hinv, ?_, hcontents, rfl⟩
      rwa [hcount]

/-- `buffer_write` adds bytes at the end. -/
theorem refines_write (h : Inv b) (data : Data) : Refines c b (.write data) := by
  have hdata : (UInt64.ofNat data.bytes.length).toNat = data.bytes.length :=
    UInt64.toNat_ofNat_of_lt' data.lt
  rw [refines_iff_sound rfl]
  unfold Buf.write
  split_ifs with hzero
  · trivial
  · have hensure := ensure_spec (c := c) h (UInt64.ofNat data.bytes.length)
    cases hres : b.ensure c (UInt64.ofNat data.bytes.length) with
    | error e =>
      obtain rfl := hensure.of_error hres
      trivial
    | ok b' =>
      obtain ⟨hinv, hcontents, -, hroom⟩ := hensure.of_ok hres
      have hblock := hinv.block
      have hmax := b'.space.toNat_lt
      have hin : (b'.off + b'.size).toNat = b'.off.toNat + b'.size.toNat :=
        toNat_add_of_lt (by omega)
      have hsub : (b'.space - b'.size).toNat = b'.space.toNat - b'.size.toNat :=
        toNat_sub_of_le (by omega)
      have hadd : (b'.size + UInt64.ofNat data.bytes.length).toNat =
          b'.size.toNat + data.bytes.length := by
        rw [toNat_add_of_lt (by omega), hdata]
      have hroom' : ¬ b'.space - b'.size < UInt64.ofNat data.bytes.length := by
        rw [UInt64.lt_iff_toNat_lt, hsub]
        omega
      obtain ⟨mem, hwrite⟩ := write_of_le b'.base data.bytes (b'.off + b'.size).toNat (by omega)
      have hcount := Buf.length_contents hinv
      have hkept := (Buf.at_contents hinv).frame hwrite (Or.inl (by omega))
      have hnew := At.write hwrite
      rw [hin] at hnew
      show Sound _ ((store b'.base (b'.off + b'.size) data.bytes).bind _)
      rw [store, hwrite]
      show Sound _ (Buf.add { b' with base := mem } (UInt64.ofNat data.bytes.length))
      rw [Buf.add, if_neg hzero, if_neg hroom']
      refine ⟨⟨(length_write hwrite).trans hblock, ?_, hinv.pos⟩, ?_, rfl⟩
      · show b'.off.toNat + (b'.size + UInt64.ofNat data.bytes.length).toNat ≤ b'.space.toNat
        omega
      · rw [← hcontents]
        refine Buf.contents_eq ?_ ?_
        · show At mem b'.off.toNat _
          rw [At.append_iff, hcount]
          exact ⟨hkept, hnew⟩
        · show _ = (b'.size + UInt64.ofNat data.bytes.length).toNat
          rw [List.length_append, hadd]
          omega

/-- A call does what it is for just when it has what it needs. -/
theorem refines_iff (h : Inv b) (op : Call) : Refines c b op ↔ Meets b op := by
  cases op with
  | clear => exact iff_of_true (refines_clear h) trivial
  | ensure size => exact iff_of_true (refines_ensure h size) trivial
  | add size => exact refines_add_iff h size
  | reverseAdd size => exact iff_of_true (refines_reverseAdd h size) trivial
  | remove size => exact iff_of_true (refines_remove h size) trivial
  | reverseRemove size => exact iff_of_true (refines_reverseRemove h size) trivial
  | insertRange base size => exact iff_of_true (refines_insertRange h base size) trivial
  | deleteRange base size => exact refines_deleteRange_iff h base size
  | write data => exact iff_of_true (refines_write h data) trivial
  | read size => exact iff_of_true (refines_read h size) trivial

end

/-! ## Runs -/

/-- A new buffer is empty. -/
theorem inv_create {c : Libc} {size : UInt64} {b : Buf} (h : Buf.create c size = .ok b) :
    Inv b ∧ b.contents = [] := by
  unfold Buf.create xmalloc at h
  split_ifs at h with hzero hgrants
  · obtain rfl := Except.ok.inj h
    refine ⟨⟨length_resize _ _ _, ?_, ?_⟩, List.take_zero⟩
    · show (0 : UInt64).toNat + (0 : UInt64).toNat ≤ size.toNat
      exact Nat.zero_le _
    · show 0 < size.toNat
      have hne : size.toNat ≠ (0 : UInt64).toNat := fun heq => hzero (UInt64.toNat_inj.1 heq)
      exact Nat.pos_of_ne_zero hne
  · cases h

/-- A call that does what it is for leaves a buffer for the next one. -/
theorem Refines.inv {c : Libc} {b b' : Buf} {op : Call} (h : Refines c b op)
    (hnext : next b (c, op) = some b') : Inv b' := by
  unfold next at hnext
  cases hcall : call c b op with
  | error e =>
    rw [hcall] at hnext
    cases hnext
  | ok r =>
    rw [hcall] at hnext
    obtain rfl := Option.some.inj hnext
    exact (h.of_ok hcall).1

/-- A call of a run, and the buffer that it is made for. -/
def Made (b : Buf) (calls : List (Libc × Call)) (b' : Buf) (a : Libc × Call) : Prop :=
  ∃ front rest, calls = front ++ a :: rest ∧ exec next b front = some b'

theorem made_head (b : Buf) (a : Libc × Call) (calls : List (Libc × Call)) :
    Made b (a :: calls) b a := ⟨[], calls, rfl, rfl⟩

theorem Made.tail {b b' b'' : Buf} {a a' : Libc × Call} {calls : List (Libc × Call)}
    (hnext : next b a = some b') (h : Made b' calls b'' a') : Made b (a :: calls) b'' a' := by
  obtain ⟨front, rest, rfl, hexec⟩ := h
  refine ⟨a :: front, rest, rfl, ?_⟩
  rw [exec, hnext]
  exact hexec

/-- The calls of a run: the first one, and those behind it. -/
theorem made_cons {b b'' : Buf} {a a' : Libc × Call} {calls : List (Libc × Call)}
    (h : Made b (a :: calls) b'' a') :
    (b'' = b ∧ a' = a) ∨ ∃ b', next b a = some b' ∧ Made b' calls b'' a' := by
  obtain ⟨front, rest, hcalls, hexec⟩ := h
  cases front with
  | nil =>
    obtain ⟨rfl, -⟩ := List.cons_eq_cons.1 hcalls
    exact Or.inl ⟨(Option.some.inj hexec).symm, rfl⟩
  | cons x front =>
    obtain ⟨rfl, rfl⟩ := List.cons_eq_cons.1 hcalls
    rw [exec, Option.bind_eq_some_iff] at hexec
    obtain ⟨b', hnext, hexec⟩ := hexec
    exact Or.inr ⟨b', hnext, front, rest, rfl, hexec⟩

/-- Two properties of calls that agree as long as they hold. -/
theorem all_iff {P Q : Buf → Libc × Call → Prop} (hPQ : ∀ b a, Inv b → (P b a ↔ Q b a))
    (hnext : ∀ b a b', P b a → next b a = some b' → Inv b') {b : Buf} (h : Inv b)
    (calls : List (Libc × Call)) :
    (∀ b' a, Made b calls b' a → P b' a) ↔ ∀ b' a, Made b calls b' a → Q b' a := by
  induction calls generalizing b with
  | nil =>
    have hnone : ∀ b' a, ¬ Made b [] b' a := by
      rintro b' a ⟨front, rest, hcalls, -⟩
      cases front with
      | nil => cases hcalls
      | cons x front => cases hcalls
    exact iff_of_true (fun b' a hmade => absurd hmade (hnone b' a))
      fun b' a hmade => absurd hmade (hnone b' a)
  | cons x calls ih =>
    constructor
    · intro hall b'' a hmade
      have hfirst := hall b x (made_head b x calls)
      rcases made_cons hmade with ⟨rfl, rfl⟩ | ⟨b', hb', hrest⟩
      · exact (hPQ _ _ h).1 hfirst
      · have hinv := hnext b x b' hfirst hb'
        exact (ih hinv).1 (fun c d hcd => hall c d (hcd.tail hb')) b'' a hrest
    · intro hall b'' a hmade
      have hfirst := (hPQ _ _ h).2 (hall b x (made_head b x calls))
      rcases made_cons hmade with ⟨rfl, rfl⟩ | ⟨b', hb', hrest⟩
      · exact hfirst
      · have hinv := hnext b x b' hfirst hb'
        exact (ih hinv).2 (fun c d hcd => hall c d (hcd.tail hb')) b'' a hrest

/-- In a run from a new buffer each call ends the program by one of its checks or does to the
contents what it is for, inside of the block, just when each call has what it needs: no `add` of
more than the free space behind an offset, and no `delete_range` whose end wraps. -/
theorem fifo_iff {c : Libc} {size : UInt64} {b : Buf} (h : Buf.create c size = .ok b)
    (calls : List (Libc × Call)) :
    (∀ b' a, Made b calls b' a → Refines a.1 b' a.2) ↔
      ∀ b' a, Made b calls b' a → Meets b' a.2 :=
  all_iff (fun _ _ hinv => refines_iff hinv _) (fun _ _ _ hrefines hnext => hrefines.inv hnext)
    (inv_create h).1 calls

/-- There is memory for everything. -/
def plenty : Libc := ⟨fun _ => true, fun _ => '\x00', 8192⟩

/-- A buffer of four bytes. -/
def small : Buf := ⟨List.replicate 4 '\x00', 4, 0, 0⟩

/-- Four bytes are written, and two of them removed. -/
def half : List (Libc × Call) :=
  [(plenty, .write ⟨['a', 'b', 'c', 'd'], by decide⟩), (plenty, .remove 2)]

theorem fifo_iff_half :
    Buf.create plenty 4 = .ok small ∧
      ((∀ b' a, Made small half b' a → Refines a.1 b' a.2) ↔
        ∀ b' a, Made small half b' a → Meets b' a.2) :=
  ⟨by decide, fifo_iff (show Buf.create plenty 4 = .ok small by decide) half⟩

/-- The buffer behind them. -/
def halved : Buf := ⟨['a', 'b', 'c', 'd'], 4, 2, 2⟩

/-- Two more bytes can be added to it, which are behind the block; and a range can be deleted whose
end wraps. -/
theorem not_refines_halved :
    Buf.create plenty 4 = .ok small ∧ exec next small half = some halved ∧
      ¬ Refines plenty halved (.add 2) ∧
      ¬ Refines plenty halved (.deleteRange 0xffffffffffffffff 2) := by
  have hinv : Inv halved := ⟨by decide, by decide, by decide⟩
  refine ⟨by decide, by decide, ?_, ?_⟩
  · rw [refines_iff hinv]
    show ¬ ((2 : UInt64) ≤ halved.free ∨ halved.space - halved.size < 2)
    decide
  · rw [refines_iff hinv]
    show ¬ ((0xffffffffffffffff : UInt64).toNat + (2 : UInt64).toNat < 2 ^ 64 ∨ halved.size < 2)
    decide

end Fdm.Bytebuf
