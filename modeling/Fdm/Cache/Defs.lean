import Fdm.Lib.Runs
import Fdm.Lib.Memory

/-!
# Cache files

`db-tdb.c` and what uses it: a cache is a file of keys, each with the time at which it was added.
The fetch children of all accounts have the same files open, and so has `fdm cache`. A step here is
one call of TDB; `tdb_traverse` calls back with no lock on the record, and nothing is assumed about
the order in which it goes through the file.
-/

namespace Fdm.Cache

open Lib.Memory

abbrev Key := List Char

abbrev Data := List Char

/-- What is used of TDB. -/
structure Tdb (T : Type) where
  fetch : T → Key → Option Data
  store : T → Key → Data → T
  delete : T → Key → T
  keys : T → List Key

/-- A TDB file is a finite map. -/
structure Tdb.Lawful {T : Type} (tdb : Tdb T) : Prop where
  fetch_store : ∀ t k v k', tdb.fetch (tdb.store t k v) k' = if k' = k then some v
    else tdb.fetch t k'
  fetch_delete : ∀ t k k', tdb.fetch (tdb.delete t k) k' = if k' = k then none
    else tdb.fetch t k'
  mem_keys : ∀ t k, k ∈ tdb.keys t ↔ (tdb.fetch t k).isSome = true

/-! ## Records -/

/-- `sizeof (struct cacheitem)`. -/
def sizeofItem : ℕ := 24

/-- `struct cacheitem`, with the time in little-endian order and the padding cleared. -/
def cacheitem (tim : ℕ) : Data := bytesOf 8 tim ++ List.replicate 16 '\x00'

/-- `letoh64(v.tim)`; nothing when the size is wrong. -/
def itemTim (v : Data) : Option ℕ :=
  if v.length = sizeofItem then some (valueOf (v.take 8)) else none

section

variable {T : Type} (tdb : Tdb T)

/-- `db_add`. -/
def dbAdd (now : ℕ) (k : Key) (t : T) : T := tdb.store t k (cacheitem now)

/-- `db_remove`: whether it fails, and the file behind it. -/
def dbRemove (k : Key) (t : T) : Bool × T :=
  if (tdb.fetch t k).isSome then (false, tdb.delete t k) else (true, t)

/-- `db_contains`. -/
def dbContains (k : Key) (t : T) : Bool := (tdb.fetch t k).isSome

/-- The records of a file. -/
def records (t : T) : List (Key × Data) :=
  (tdb.keys t).filterMap fun k => (tdb.fetch t k).map fun v => (k, v)

end

/-! ## Processes -/

/-- What a process that has the file open does next. `begun` is the time at which its `db_expire`
has been called; `todo` has the records that were there then and have not been visited. -/
inductive Proc
  | closed
  | expiring (begun : ℕ) (todo : List (Key × Data))
  /-- `db_expire_item` has seen an old record and deletes it. -/
  | expiringItem (begun : ℕ) (todo : List (Key × Data)) (k : Key)
  /-- `expired` is there when the traversal of `db_expire` has come to its end. -/
  | opened (expired : Option ℕ)
  /-- `db_contains` has found the key that is to be removed. -/
  | removing (expired : Option ℕ) (k : Key)
  | clearing
  | clearingItem (k : Key)
deriving DecidableEq, Repr

/-- The key that is deleted next. -/
def Proc.deletes : Proc → Option Key
  | expiringItem _ _ k => some k
  | removing _ k => some k
  | clearingItem k => some k
  | _ => none

/-- `db_clear` is going on. -/
def Proc.clears : Proc → Bool
  | clearing => true
  | clearingItem _ => true
  | _ => false

/-- The file, the time, and the processes. -/
structure Sys (T : Type) where
  file : T
  now : ℕ
  proc : ℕ → Proc := fun _ => .closed

inductive Act
  | tick
  /-- `open_cache` -/
  | openCache (p : ℕ)
  /-- `db_open` in `fdm cache` -/
  | dbOpen (p : ℕ)
  | dbClear (p : ℕ)
  /-- `tdb_traverse` calls back for a record. -/
  | visit (p : ℕ) (k : Key)
  /-- `tdb_delete` -/
  | delete (p : ℕ)
  /-- The traversal has come to its end. -/
  | finish (p : ℕ)
  /-- `db_add` -/
  | add (p : ℕ) (k : Key)
  /-- `db_contains`, where `db_remove` follows -/
  | remove (p : ℕ) (k : Key)
  | close (p : ℕ)
deriving DecidableEq, Repr

section

variable {T : Type} (tdb : Tdb T)

def Sys.set (s : Sys T) (p : ℕ) (x : Proc) : Sys T :=
  { s with proc := Function.update s.proc p x }

/-- `open_cache`, up to the traversal of `db_expire`. -/
def openCache (expire : ℕ) (p : ℕ) (s : Sys T) : Sys T :=
  if expire = 0 then s.set p (.opened none)
  else if s.now ≤ expire then s.set p (.opened (some s.now))
  else s.set p (.expiring s.now (records tdb s.file))

/-- `db_expire_item` and `db_clear_item`, up to `tdb_delete`. A record of another size ends the
traversal. -/
def visit (expire : ℕ) (p : ℕ) (k : Key) (v : Data) (s : Sys T) : Option (Sys T) :=
  match s.proc p with
  | .expiring begun todo =>
    match itemTim v with
    | none => some (s.set p (.opened none))
    | some tim =>
      let todo := todo.filter fun x => x.1 ≠ k
      some (s.set p (if tim < begun - expire then .expiringItem begun todo k
        else .expiring begun todo))
  | .clearing =>
    some (s.set p (if v.length ≠ sizeofItem then .closed else .clearingItem k))
  | _ => none

/-- `tdb_delete`, and what the process does behind it. A traversal is ended when it fails. -/
def delete (p : ℕ) (s : Sys T) : Option (Sys T) :=
  match s.proc p with
  | .expiringItem begun todo k =>
    let (fails, t) := dbRemove tdb k s.file
    some ({ s with file := t }.set p (if fails then .opened none else .expiring begun todo))
  | .removing expired k =>
    some ({ s with file := (dbRemove tdb k s.file).2 }.set p (.opened expired))
  | .clearingItem k =>
    let (fails, t) := dbRemove tdb k s.file
    some ({ s with file := t }.set p (if fails then .closed else .clearing))
  | _ => none

/-- The records that were there when the traversal began have been visited, or are not there any
more. -/
def finish (p : ℕ) (s : Sys T) : Option (Sys T) :=
  match s.proc p with
  | .expiring begun todo =>
    if ∀ x ∈ todo, tdb.fetch s.file x.1 ≠ some x.2 then some (s.set p (.opened (some begun)))
    else none
  | .clearing => some (s.set p .closed)
  | _ => none

/-- One step; `expire` is what the configuration of a process says. -/
def step (expire : ℕ → ℕ) (s : Sys T) : Act → Option (Sys T)
  | .tick => some { s with now := s.now + 1 }
  | .openCache p =>
    if s.proc p = .closed then some (openCache tdb (expire p) p s) else none
  | .dbOpen p => if s.proc p = .closed then some (s.set p (.opened none)) else none
  | .dbClear p => if s.proc p = .closed then some (s.set p .clearing) else none
  | .visit p k => (tdb.fetch s.file k).bind fun v => visit (expire p) p k v s
  | .delete p => delete tdb p s
  | .finish p => finish tdb p s
  | .add p k =>
    match s.proc p with
    | .opened _ => some { s with file := dbAdd tdb s.now k s.file }
    | _ => none
  | .remove p k =>
    match s.proc p with
    | .opened expired =>
      some (if dbContains tdb k s.file then s.set p (.removing expired k) else s)
    | _ => none
  | .close p => some (s.set p .closed)

end

end Fdm.Cache
