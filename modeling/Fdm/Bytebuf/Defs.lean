import Fdm.Lib.Runs
import Fdm.Xmalloc

/-!
# Byte buffers

`buffer.c` with its sizes in a `size_t`, and what its functions are to do to the bytes in a buffer.
-/

namespace Fdm.Bytebuf

open Lib.Memory Fdm.Xmalloc

/-! ## The code -/

/-- `struct buffer`. -/
structure Buf where
  base : List Char
  space : UInt64
  size : UInt64
  off : UInt64
deriving DecidableEq, Repr

/-- `memmove` inside of a block; for no bytes it does nothing. -/
def memmove (mem : List Char) (dst src n : UInt64) : Except Stop (List Char) :=
  if n = 0 then .ok mem
  else (move mem dst.toNat src.toNat n.toNat).elim (.error .fault) .ok

namespace Buf

/-- `BUFFER_FREE`. -/
def free (b : Buf) : UInt64 := b.space - b.off - b.size

/-- `buffer_create`. -/
def create (c : Libc) (size : UInt64) : Except Stop Buf :=
  if size = 0 then .error .fatal else (xmalloc c size).map fun base => ⟨base, size, 0, 0⟩

/-- `buffer_clear`. -/
def clear (b : Buf) : Buf := { b with size := 0, off := 0 }

/-- Where `buffer_ensure` moves the data to the front. -/
def compact (b : Buf) : Except Stop Buf :=
  if 0 < b.off then
    (if 0 < b.size then memmove b.base 0 b.off b.size else .ok b.base).map fun base =>
      { b with base := base, off := 0 }
  else .ok b

/-- `buffer_ensure`. -/
def ensure (c : Libc) (b : Buf) (size : UInt64) : Except Stop Buf :=
  if size = 0 then .error .fatal
  else if size ≤ b.free then .ok b
  else
    b.compact.bind fun b =>
      if sizeMax - b.size < size then .error .fatal
      else
        (double c (fun space => space < b.size + size) 65 b.base b.space).map fun r =>
          { b with base := r.1, space := r.2 }

/-- `buffer_add`. -/
def add (b : Buf) (size : UInt64) : Except Stop Buf :=
  if size = 0 then .error .fatal
  else if b.space - b.size < size then .error .fatal
  else .ok { b with size := b.size + size }

/-- `buffer_reverse_add`. -/
def reverseAdd (b : Buf) (size : UInt64) : Except Stop Buf :=
  if size = 0 then .error .fatal
  else if b.size < size then .error .fatal
  else .ok { b with size := b.size - size }

/-- `buffer_remove`. -/
def remove (b : Buf) (size : UInt64) : Except Stop Buf :=
  if size = 0 then .error .fatal
  else if b.size < size then .error .fatal
  else .ok { b with size := b.size - size, off := b.off + size }

/-- `buffer_reverse_remove`. -/
def reverseRemove (b : Buf) (size : UInt64) : Except Stop Buf :=
  if size = 0 then .error .fatal
  else if b.off < size then .error .fatal
  else .ok { b with size := b.size + size, off := b.off - size }

/-- `buffer_insert_range`. -/
def insertRange (c : Libc) (b : Buf) (base size : UInt64) : Except Stop Buf :=
  if size = 0 then .error .fatal
  else if b.size < base then .error .fatal
  else
    (b.ensure c size).bind fun b =>
      (memmove b.base (b.off + base + size) (b.off + base) (b.size - base)).map fun mem =>
        { b with base := mem, size := b.size + size }

/-- `buffer_delete_range`. -/
def deleteRange (b : Buf) (base size : UInt64) : Except Stop Buf :=
  if size = 0 then .error .fatal
  else if b.size < size then .error .fatal
  else if b.size < base + size then .error .fatal
  else
    (memmove b.base (b.off + base) (b.off + base + size) (b.size - base - size)).map fun mem =>
      { b with base := mem, size := b.size - size }

/-- `buffer_write`. -/
def write (c : Libc) (b : Buf) (data : List Char) (size : UInt64) : Except Stop Buf :=
  if size = 0 then .error .fatal
  else
    (b.ensure c size).bind fun b =>
      (store b.base (b.off + b.size) data).bind fun mem => { b with base := mem }.add size

/-- `buffer_read`: the bytes that are copied as well. -/
def read (b : Buf) (size : UInt64) : Except Stop (Buf × List Char) :=
  if size = 0 then .error .fatal
  else if b.size < size then .error .fatal
  else
    match Lib.Memory.read b.base b.off.toNat size.toNat with
    | none => .error .fault
    | some data => (b.remove size).map fun b => (b, data)

end Buf

/-- Bytes that are in memory somewhere. -/
structure Data where
  bytes : List Char
  lt : bytes.length < 2 ^ 64

/-- The calls. -/
inductive Call
  | clear
  | ensure (size : UInt64)
  | add (size : UInt64)
  | reverseAdd (size : UInt64)
  | remove (size : UInt64)
  | reverseRemove (size : UInt64)
  | insertRange (base size : UInt64)
  | deleteRange (base size : UInt64)
  | write (data : Data)
  | read (size : UInt64)

/-- A call: the buffer behind it, and the bytes that it copies out. -/
def call (c : Libc) (b : Buf) : Call → Except Stop (Buf × List Char)
  | .clear => .ok (b.clear, [])
  | .ensure size => (b.ensure c size).map fun b => (b, [])
  | .add size => (b.add size).map fun b => (b, [])
  | .reverseAdd size => (b.reverseAdd size).map fun b => (b, [])
  | .remove size => (b.remove size).map fun b => (b, [])
  | .reverseRemove size => (b.reverseRemove size).map fun b => (b, [])
  | .insertRange base size => (b.insertRange c base size).map fun b => (b, [])
  | .deleteRange base size => (b.deleteRange base size).map fun b => (b, [])
  | .write data => (b.write c data.bytes (UInt64.ofNat data.bytes.length)).map fun b => (b, [])
  | .read size => b.read size

/-- A run: a call at a time, each with the memory that there is then. -/
def next (b : Buf) (a : Libc × Call) : Option Buf := (call a.1 b a.2).toOption.map Prod.fst

/-! ## What it is to do -/

/-- The data and the free space are inside of the block. -/
structure Inv (b : Buf) : Prop where
  block : b.base.length = b.space.toNat
  fits : b.off.toNat + b.size.toNat ≤ b.space.toNat
  pos : 0 < b.space.toNat

/-- The bytes from `BUFFER_OUT` on, `BUFFER_USED` of them. -/
def Buf.contents (b : Buf) : List Char := (b.base.drop b.off.toNat).take b.size.toNat

/-- The bytes in front of the data, and behind it. -/
def Buf.front (b : Buf) : List Char := b.base.take b.off.toNat

def Buf.back (b : Buf) : List Char := b.base.drop (b.off.toNat + b.size.toNat)

/-- What can be done to a sequence that stands between others. -/
inductive Op (α : Type)
  | clear
  | ensure (n : ℕ)
  | add (n : ℕ)
  | reverseAdd (n : ℕ)
  | remove (n : ℕ)
  | reverseRemove (n : ℕ)
  | insertRange (p n : ℕ)
  | deleteRange (p n : ℕ)
  | write (data : List α)
  | read (n : ℕ)

/-- A sequence `s`, with the others in front of it and behind it, becomes `s'`, and `out` is copied
from it: `add` takes in what is behind it, `reverseRemove` what is in front, and `insertRange`
leaves a gap. -/
def Op.Does {α : Type} (front s back s' out : List α) : Op α → Prop
  | .clear => s' = [] ∧ out = []
  | .ensure _ => s' = s ∧ out = []
  | .add n => n ≤ back.length ∧ s' = s ++ back.take n ∧ out = []
  | .reverseAdd n => n ≤ s.length ∧ s' = s.take (s.length - n) ∧ out = []
  | .remove n => n ≤ s.length ∧ s' = s.drop n ∧ out = []
  | .reverseRemove n => n ≤ front.length ∧ s' = front.drop (front.length - n) ++ s ∧ out = []
  | .insertRange p n =>
    p ≤ s.length ∧ (∃ gap, gap.length = n ∧ s' = s.take p ++ gap ++ s.drop p) ∧ out = []
  | .deleteRange p n => p + n ≤ s.length ∧ s' = s.take p ++ s.drop (p + n) ∧ out = []
  | .write data => s' = s ++ data ∧ out = []
  | .read n => n ≤ s.length ∧ s' = s.drop n ∧ out = s.take n

/-- What a call is for. -/
def Call.op : Call → Op Char
  | .clear => .clear
  | .ensure size => .ensure size.toNat
  | .add size => .add size.toNat
  | .reverseAdd size => .reverseAdd size.toNat
  | .remove size => .remove size.toNat
  | .reverseRemove size => .reverseRemove size.toNat
  | .insertRange base size => .insertRange base.toNat size.toNat
  | .deleteRange base size => .deleteRange base.toNat size.toNat
  | .write data => .write data.bytes
  | .read size => .read size.toNat

/-- A call ends the program by one of its checks, or does what it is for inside of the block. -/
def Refines (c : Libc) (b : Buf) (op : Call) : Prop :=
  Sound (fun r => Inv r.1 ∧ op.op.Does b.front b.contents b.back r.1.contents r.2) (call c b op)

/-- What a call needs: `add` does not look at the offset, and the sum of `delete_range` can wrap. -/
def Meets (b : Buf) : Call → Prop
  | .add size => size ≤ b.free ∨ b.space - b.size < size
  | .deleteRange base size => base.toNat + size.toNat < 2 ^ 64 ∨ b.size < size
  | _ => True

end Fdm.Bytebuf
