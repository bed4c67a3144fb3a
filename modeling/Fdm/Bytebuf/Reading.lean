import Fdm.Bytebuf.Theorems
import Fdm.Io.Readline

/-!
# The buffer that is read into

`io.c` makes room, writes behind the data, removes from its front and reads. On the block these
calls do what they do to a `Buffer`, with its natural numbers, in every run that the checks do not
end.

* `Same`: a block and a `Buffer` are laid out in the same way;
* `same_call`: a call keeps them so;
* `same_run`: a run does.
-/

namespace Fdm.Bytebuf

open Fdm.Xmalloc
open Lib.Runs (exec)

/-- The data, and where it is. -/
structure Same (b : Buf) (rd : Buffer) : Prop where
  inv : Inv b
  space : rd.base.length = b.space.toNat
  off : rd.off = b.off.toNat
  size : rd.size = b.size.toNat
  contents : rd.contents = b.contents

/-- The calls with natural numbers; `none` for one that `io.c` does not make to read. -/
def bufferCall (rd : Buffer) : Call → Option (Buffer × List Char)
  | .ensure size => (rd.ensure size.toNat).map fun rd => (rd, [])
  | .write data =>
    (rd.ensure data.bytes.length).bind fun rd => (rd.add data.bytes).map fun rd => (rd, [])
  | .remove size => (rd.remove size.toNat).map fun rd => (rd, [])
  | .read size => (rd.read size.toNat).map fun r => (r.2, r.1)
  | _ => none

/-- A run of them. -/
def bufferNext (rd : Buffer) (op : Call) : Option Buffer := (bufferCall rd op).map Prod.fst

/-- The calls that `io.c` makes to read. -/
def Call.reads : Call → Bool
  | .ensure _ | .write _ | .remove _ | .read _ => true
  | _ => false

section

variable {c : Libc} {b b' : Buf} {rd : Buffer}

/-- There is as much room. -/
theorem Same.free (h : Same b rd) : rd.free = b.free.toNat := by
  rw [Buffer.free, Buf.toNat_free h.inv, h.space, h.off, h.size]

theorem same_create {size : UInt64} (h : Buf.create c size = .ok b) :
    ∃ rd, Buffer.create size.toNat = some rd ∧ Same b rd := by
  obtain ⟨hinv, hcontents⟩ := inv_create h
  have hne : size.toNat ≠ 0 := by
    intro hzero
    have hsize : size = 0 := UInt64.toNat_inj.1 hzero
    rw [Buf.create, if_pos hsize] at h
    cases h
  have hlaid : b.space = size ∧ b.off = 0 ∧ b.size = 0 := by
    unfold Buf.create xmalloc at h
    split_ifs at h
    · obtain rfl := Except.ok.inj h
      exact ⟨rfl, rfl, rfl⟩
    · cases h
  refine ⟨_, dif_neg hne, hinv, ?_, ?_, ?_, ?_⟩
  · rw [List.length_replicate, hlaid.1]
  · rw [hlaid.2.1]
    rfl
  · rw [hlaid.2.2]
    rfl
  · rw [hcontents]
    exact List.take_zero

/-! ## Making room -/

/-- The data is moved to the front in both. -/
theorem same_compact (h : Same b rd) (hcompact : b.compact = .ok b') : Same b' rd.compact := by
  obtain ⟨_, heq, hinv, hoff, hsize, hspace, hcontents⟩ := compact_spec h.inv
  obtain rfl := Except.ok.inj (hcompact.symm.trans heq)
  refine ⟨hinv, ?_, ?_, ?_, ?_⟩
  · have hfits := rd.fits
    rw [hspace, ← h.space, Buffer.compact]
    split
    · rfl
    · rw [List.length_append, List.length_drop, Buffer.length_contents]
      omega
  · rw [Buffer.off_compact, hoff]
    rfl
  · rw [Buffer.size_compact, hsize, h.size]
  · rw [Buffer.contents_compact, hcontents, h.contents]

/-- Both double their space as often. -/
theorem length_enlarge {want : UInt64} (n m : ℕ) {buf base : List Char} {len : UInt64}
    {r : List Char × UInt64} (h : double c (fun space => space < want) n buf len = .ok r)
    (hlen : base.length = len.toNat) (hpos : 0 < len.toNat) (hm : want.toNat ≤ m + base.length) :
    (Buffer.enlarge m base want.toNat).length = r.2.toNat := by
  induction n generalizing m buf base len with
  | zero => cases h
  | succ n ih =>
    rw [double] at h
    split at h
    · next hsmall =>
      rw [decide_eq_true_iff, UInt64.lt_iff_toNat_lt] at hsmall
      cases hbuf : xrealloc c buf 2 len with
      | error e =>
        rw [hbuf] at h
        cases h
      | ok buf' =>
        rw [hbuf] at h
        obtain ⟨hdouble, -, -⟩ := (xrealloc_two c buf hpos).of_ok hbuf
        -- the other loop has a pass left, because its block is too small as well
        obtain ⟨m, rfl⟩ : ∃ k, m = k + 1 := ⟨m - 1, by omega⟩
        have hlength : (base ++ List.replicate base.length '\x00').length = 2 * base.length := by
          rw [List.length_append, List.length_replicate]
          omega
        rw [Buffer.enlarge, if_pos (by omega)]
        apply ih m h
        · rw [hlength, hdouble, hlen]
        · omega
        · omega
    · next hlarge =>
      obtain rfl := Except.ok.inj h
      rw [decide_eq_true_iff, UInt64.lt_iff_toNat_lt] at hlarge
      cases m with
      | zero => exact hlen
      | succ m =>
        rw [Buffer.enlarge, if_neg (by omega)]
        exact hlen

theorem same_ensure (h : Same b rd) {size : UInt64} (hensure : b.ensure c size = .ok b') :
    ∃ rd', rd.ensure size.toNat = some rd' ∧ Same b' rd' := by
  have hspec := (ensure_spec (c := c) h.inv size).of_ok hensure
  obtain ⟨hinv, hcontents, hsize, -⟩ := hspec
  by_cases hzero : size = 0
  · rw [Buf.ensure, if_pos hzero] at hensure
    cases hensure
  have hne : size.toNat ≠ 0 := fun heq => hzero (UInt64.toNat_inj.1 heq)
  obtain ⟨rd', hrd, hkept, -⟩ := rd.ensure_spec hne
  refine ⟨rd', hrd, ?_⟩
  rw [Buf.ensure, if_neg hzero] at hensure
  rw [Buffer.ensure, if_neg hne] at hrd
  by_cases hfree : size ≤ b.free
  · have hfree' : size.toNat ≤ rd.free := by
      rw [h.free]
      exact UInt64.le_iff_toNat_le.1 hfree
    rw [if_pos hfree] at hensure
    rw [if_pos hfree'] at hrd
    obtain rfl := Except.ok.inj hensure
    obtain rfl := Option.some.inj hrd
    exact h
  · have hfree' : ¬ size.toNat ≤ rd.free := by
      rw [h.free]
      exact fun hle => hfree (UInt64.le_iff_toNat_le.2 hle)
    rw [if_neg hfree] at hensure
    rw [if_neg hfree'] at hrd
    cases hcompact : b.compact with
    | error e =>
      rw [hcompact] at hensure
      cases hensure
    | ok b₁ =>
      have hsame := same_compact h hcompact
      rw [hcompact, Except.bind] at hensure
      split_ifs at hensure with hmax
      cases hdouble : double c (fun space => space < b₁.size + size) 65 b₁.base b₁.space with
      | error e =>
        rw [hdouble] at hensure
        cases hensure
      | ok r =>
        rw [hdouble] at hensure
        obtain rfl := Except.ok.inj hensure
        obtain rfl := Option.some.inj hrd
        have hwant : rd.compact.size + size.toNat = (b₁.size + size).toNat := by
          rw [toNat_add_of_le hmax, hsame.size]
        have hlength := length_enlarge 65 (rd.compact.size + size.toNat) hdouble hsame.space
          hsame.inv.pos (by omega)
        refine ⟨hinv, ?_, hsame.off, hsame.size, ?_⟩
        · show (Buffer.enlarge (rd.compact.size + size.toNat) rd.compact.base
            (rd.compact.size + size.toNat)).length = r.2.toNat
          rw [hwant] at hlength ⊢
          exact hlength
        · rw [hkept, hcontents, h.contents]

/-! ## The calls -/

theorem same_remove (h : Same b rd) {size : UInt64} (hremove : b.remove size = .ok b') :
    ∃ rd', rd.remove size.toNat = some rd' ∧ Same b' rd' := by
  unfold Buf.remove at hremove
  split_ifs at hremove with hzero hlarge
  obtain rfl := Except.ok.inj hremove
  have hne : size.toNat ≠ 0 := fun heq => hzero (UInt64.toNat_inj.1 heq)
  have hle := toNat_le_of_not_lt hlarge
  have hfits := h.inv.fits
  have hmax := b.space.toNat_lt
  have hrefuse : ¬ (size.toNat = 0 ∨ rd.size < size.toNat) := by
    rw [h.size]
    omega
  refine ⟨_, dif_neg hrefuse, inv_remove h.inv hle, h.space, ?_, ?_, ?_⟩
  · show rd.off + size.toNat = (b.off + size).toNat
    rw [toNat_add_of_lt (by omega), h.off]
  · show rd.size - size.toNat = (b.size - size).toNat
    rw [toNat_sub_of_le hle, h.size]
  · show (rd.base.drop (rd.off + size.toNat)).take (rd.size - size.toNat) =
      (b.base.drop (b.off + size).toNat).take (b.size - size).toNat
    rw [contents_remove h.inv hle, ← h.contents, Buffer.contents, List.drop_take, List.drop_drop]

theorem same_read (h : Same b rd) {size : UInt64} {out : List Char}
    (hread : b.read size = .ok (b', out)) :
    ∃ rd', rd.read size.toNat = some (out, rd') ∧ Same b' rd' := by
  have hrefines := (refines_read (c := ⟨fun _ => true, fun _ => '\x00', 0⟩) h.inv size).of_ok hread
  have hout : out = b.contents.take size.toNat := hrefines.2.2.2
  unfold Buf.read at hread
  split_ifs at hread
  split at hread
  · cases hread
  · cases hremove : b.remove size with
    | error e =>
      rw [hremove] at hread
      cases hread
    | ok b'' =>
      rw [hremove] at hread
      cases hread
      obtain ⟨rd', hrd, hsame⟩ := same_remove h hremove
      refine ⟨rd', ?_, hsame⟩
      rw [Buffer.read, hrd, Option.map_some, h.contents, hout]

/-- What has been read is put behind the data. -/
theorem same_add (h : Same b rd) {data : List Char} (hne : data ≠ [])
    (hfree : data.length ≤ rd.free) {mem : List Char} {size : UInt64}
    (hsize : size.toNat = data.length) (hinv : Inv { b with base := mem, size := b.size + size })
    (hcontents : Buf.contents { b with base := mem, size := b.size + size } = b.contents ++ data) :
    ∃ rd', rd.add data = some rd' ∧ Same { b with base := mem, size := b.size + size } rd' := by
  have hfits := rd.fits
  have hmax := b.space.toNat_lt
  have hspace := h.space
  have hcount := h.size
  have hroom := hfree
  unfold Buffer.free at hroom
  obtain ⟨rd', hadd, hkept⟩ := Buffer.add_spec hne hfree
  have heq := hadd
  rw [Buffer.add, dif_pos ⟨hne, hfree⟩] at heq
  obtain rfl := Option.some.inj heq
  refine ⟨_, hadd, hinv, ?_, ?_, ?_, ?_⟩
  · show (rd.base.take (rd.off + rd.size) ++ data ++
      rd.base.drop (rd.off + rd.size + data.length)).length = b.space.toNat
    rw [List.length_append, List.length_append, List.length_take, List.length_drop]
    omega
  · exact h.off
  · show rd.size + data.length = (b.size + size).toNat
    rw [toNat_add_of_lt (by omega), h.size, hsize]
  · rw [hkept, hcontents, h.contents]

theorem same_write (h : Same b rd) {data : Data}
    (hwrite : b.write c data.bytes (UInt64.ofNat data.bytes.length) = .ok b') :
    ∃ rd₁ rd', rd.ensure data.bytes.length = some rd₁ ∧ rd₁.add data.bytes = some rd' ∧
      Same b' rd' := by
  have hdata : (UInt64.ofNat data.bytes.length).toNat = data.bytes.length :=
    UInt64.toNat_ofNat_of_lt' data.lt
  have hrefines := refines_write (c := c) h.inv data
  rw [refines_iff_sound rfl] at hrefines
  obtain ⟨hinv, hcontents, -⟩ := hrefines.of_ok hwrite
  unfold Buf.write at hwrite
  split_ifs at hwrite with hzero
  have hne : data.bytes ≠ [] := by
    intro hnil
    rw [hnil] at hzero
    exact hzero rfl
  cases hensure : b.ensure c (UInt64.ofNat data.bytes.length) with
  | error e =>
    rw [hensure] at hwrite
    cases hwrite
  | ok b₁ =>
    obtain ⟨rd₁, hrd, hsame⟩ := same_ensure h hensure
    obtain ⟨-, hkept, -, hroom⟩ := (ensure_spec (c := c) h.inv _).of_ok hensure
    rw [hdata] at hrd hroom
    have hfree : data.bytes.length ≤ rd₁.free := by
      rw [hsame.free, Buf.toNat_free hsame.inv]
      omega
    rw [hensure, Except.bind] at hwrite
    cases hstore : store b₁.base (b₁.off + b₁.size) data.bytes with
    | error e =>
      rw [hstore] at hwrite
      cases hwrite
    | ok mem =>
      rw [hstore, Except.bind, Buf.add, if_neg hzero] at hwrite
      split_ifs at hwrite
      obtain rfl := Except.ok.inj hwrite
      rw [← hkept] at hcontents
      obtain ⟨rd', hadd, hsame'⟩ := same_add hsame hne hfree hdata hinv hcontents
      exact ⟨rd₁, rd', hrd, hadd, hsame'⟩

/-- A call that copies nothing out. -/
theorem of_map_ok {r : Except Stop Buf} {out : List Char}
    (h : (r.map fun b => (b, ([] : List Char))) = .ok (b', out)) : r = .ok b' ∧ out = [] := by
  cases r with
  | error e => cases h
  | ok b₁ =>
    cases h
    exact ⟨rfl, rfl⟩

/-- A call that the checks do not end does the same to both. -/
theorem same_call (h : Same b rd) {op : Call} (hop : op.reads = true) {out : List Char}
    (hcall : call c b op = .ok (b', out)) :
    ∃ rd', bufferCall rd op = some (rd', out) ∧ Same b' rd' := by
  cases op with
  | ensure size =>
    obtain ⟨hensure, rfl⟩ := of_map_ok hcall
    obtain ⟨rd', hrd, hsame⟩ := same_ensure h hensure
    exact ⟨rd', by rw [bufferCall, hrd, Option.map_some], hsame⟩
  | write data =>
    obtain ⟨hwrite, rfl⟩ := of_map_ok hcall
    obtain ⟨rd₁, rd', hensure, hadd, hsame⟩ := same_write h hwrite
    exact ⟨rd', by rw [bufferCall, hensure, Option.bind_some, hadd, Option.map_some], hsame⟩
  | remove size =>
    obtain ⟨hremove, rfl⟩ := of_map_ok hcall
    obtain ⟨rd', hrd, hsame⟩ := same_remove h hremove
    exact ⟨rd', by rw [bufferCall, hrd, Option.map_some], hsame⟩
  | read size =>
    obtain ⟨rd', hrd, hsame⟩ := same_read h hcall
    exact ⟨rd', by rw [bufferCall, hrd, Option.map_some], hsame⟩
  | _ => cases hop

/-- A run that the checks do not end is one of the natural numbers. -/
theorem same_exec (h : Same b rd) {calls : List (Libc × Call)}
    (hcalls : ∀ a ∈ calls, a.2.reads = true) (hrun : exec next b calls = some b') :
    ∃ rd', exec bufferNext rd (calls.map Prod.snd) = some rd' ∧ Same b' rd' := by
  induction calls generalizing b rd with
  | nil =>
    obtain rfl := Option.some.inj hrun
    exact ⟨rd, rfl, h⟩
  | cons a calls ih =>
    rw [exec, Option.bind_eq_some_iff] at hrun
    obtain ⟨b₁, hnext, hrest⟩ := hrun
    cases hcall : call a.1 b a.2 with
    | error e =>
      rw [next, hcall] at hnext
      cases hnext
    | ok r =>
      rw [next, hcall] at hnext
      obtain rfl := Option.some.inj hnext
      obtain ⟨rd₁, hrd, hsame⟩ := same_call h (hcalls a List.mem_cons_self) hcall
      obtain ⟨rd', hrun', hsame'⟩ :=
        ih hsame (fun x hx => hcalls x (List.mem_cons_of_mem a hx)) hrest
      refine ⟨rd', ?_, hsame'⟩
      rw [List.map_cons, exec, bufferNext, hrd]
      exact hrun'

/-- From `buffer_create` on. -/
theorem same_run {size : UInt64} (h : Buf.create c size = .ok b) {calls : List (Libc × Call)}
    (hcalls : ∀ a ∈ calls, a.2.reads = true) (hrun : exec next b calls = some b') :
    ∃ rd rd', Buffer.create size.toNat = some rd ∧
      exec bufferNext rd (calls.map Prod.snd) = some rd' ∧ Same b' rd' := by
  obtain ⟨rd, hcreate, hsame⟩ := same_create h
  obtain ⟨rd', hrun', hsame'⟩ := same_exec hsame hcalls hrun
  exact ⟨rd, rd', hcreate, hrun', hsame'⟩

end

end Fdm.Bytebuf
