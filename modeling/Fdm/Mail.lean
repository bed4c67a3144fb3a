import Fdm.Lib.Lines
import Mathlib.Tactic.SplitIfs

/-!
# Mails while they are fetched

`struct mail` as the fetch functions see it: the bytes `m->data[0..size)`, the offset of
the body, the decision and the fetcher's own `auxdata`. A byte is the character of the
same code, and `m->size` is the length of `data`. `line_init` and `line_next` go through the
lines of `Lib.Lines`.
-/

namespace Fdm

open Lib.Lines

/-- `enum decision`, without the `DECISION_NONE` that no fetched mail ever has. -/
inductive Decision
  | drop
  | keep
deriving DecidableEq, Repr

/-- `struct mail`; `α` is what the fetcher hangs on `auxdata`. -/
structure Mail (α : Type) where
  data : List Char := []
  body : ℕ := 0
  decision : Decision := .drop
  auxdata : Option α := none
deriving DecidableEq, Repr

namespace Mail

variable {α : Type}

/-- `m->size`. -/
def size (m : Mail α) : ℕ := m.data.length

/-- `append_line`: the line and a newline. -/
def appendLine (m : Mail α) (line : List Char) : Mail α :=
  { m with data := m.data ++ line ++ ['\n'] }

@[simp] theorem appendLine_auxdata (m : Mail α) (line : List Char) :
    (m.appendLine line).auxdata = m.auxdata := rfl

end Mail

namespace Mail

variable {α : Type}

/-- The loop of `find_body`: the offset behind the first empty line, or zero. -/
def findBodyFrom (off : ℕ) : List (List Char) → ℕ
  | [] => 0
  | l :: ls => if l = ['\n'] then off + 1 else findBodyFrom (off + l.length) ls

/-- `find_body`. -/
def findBody (m : Mail α) : ℕ := findBodyFrom 0 (lines m.data)

/-- `m->body = find_body(m)`. -/
def withBody (m : Mail α) : Mail α := { m with body := m.findBody }

@[simp] theorem withBody_auxdata (m : Mail α) : m.withBody.auxdata = m.auxdata := rfl

/-- `"From "`. -/
def fromPrefix : List Char := ['F', 'r', 'o', 'm', ' ']

/-- `trim_from`: drop the first line when it is a `From ` line. -/
def trimFrom (m : Mail α) : Mail α :=
  if m.body = 0 ∨ m.size < 5 then m
  else if ¬ fromPrefix <+: m.data then m
  else
    let len := ((lines m.data).headD []).length
    { m with data := m.data.drop len, body := m.body - len }

/-- Cutting the `From ` line off leaves the mail with the entry it was fetched from. -/
@[simp] theorem trimFrom_auxdata (m : Mail α) : m.trimFrom.auxdata = m.auxdata := by
  unfold trimFrom
  split_ifs <;> rfl

end Mail

end Fdm
