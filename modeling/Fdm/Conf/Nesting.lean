import Fdm.Conf.Defs
import Mathlib.Data.List.Induction

/-!
# Nested rules

A rule that ends in `{` has the rules up to its `}` inside it. `Nest` is how rules are nested in
the text, and `Nest.build` the rules that are meant; `parse_iff` says which files the parser
accepts, and that it builds these.
-/

namespace Fdm.Conf

open Rules (Actitem Action Expritem Replstr Rule)

variable {φ κ δ : Type}

/-! ## Rules in the text -/

/-- A rule or none, the rules inside it, and the rules that come next. -/
inductive Nest (κ δ : Type)
  | nil
  | leaf (first : Expritem κ) (rest : List (Expritem κ)) (perform : Perform δ) (next : Nest κ δ)
  | block (first : Expritem κ) (rest : List (Expritem κ)) (inner next : Nest κ δ)

namespace Nest

/-- The commands that make up the text. -/
def commands : Nest κ δ → List (Command φ κ δ)
  | nil => []
  | leaf first rest perform next => .rule first rest perform :: next.commands
  | block first rest inner next =>
    .openRule first rest :: (inner.commands ++ .close :: next.commands)

/-- How many rules there are. -/
def size : Nest κ δ → ℕ
  | nil => 0
  | leaf _ _ _ next => next.size + 1
  | block _ _ inner next => inner.size + next.size + 1

/-- A rule without nested rules. -/
def leafRule (idx : ℕ) (first : Expritem κ) (rest : List (Expritem κ)) : Perform δ → Rule κ δ
  | .action users item cont => .mk idx first rest users cont (some (lambda idx [item])) [] []
  | .actionList users list cont => .mk idx first rest users cont (some (lambda idx list)) [] []
  | .actions users actions cont => .mk idx first rest users cont none actions []

/-- The rules that are meant, numbered in the order of the text. A rule with rules inside goes on
to the next one. -/
def build (idx : ℕ) : Nest κ δ → List (Rule κ δ)
  | nil => []
  | leaf first rest perform next => leafRule idx first rest perform :: next.build (idx + 1)
  | block first rest inner next =>
    .mk idx first rest none true none [] (inner.build (idx + 1)) ::
      next.build (idx + 1 + inner.size)

def append : Nest κ δ → Nest κ δ → Nest κ δ
  | nil, n => n
  | leaf first rest perform next, n => leaf first rest perform (next.append n)
  | block first rest inner next, n => block first rest inner (next.append n)

theorem commands_append (a b : Nest κ δ) :
    (a.append b).commands = (a.commands ++ b.commands : List (Command φ κ δ)) := by
  induction a with
  | nil => rfl
  | leaf first rest perform next ih =>
    rw [append, commands, commands, ih]
    rfl
  | block first rest inner next _ ih =>
    rw [append, commands, commands, ih]
    simp only [List.cons_append, List.append_assoc]

/-! ## Rules in memory -/

/-- Where the outermost rules are, when the first is at `n`. -/
def roots (n : ℕ) : Nest κ δ → List ℕ
  | nil => []
  | leaf _ _ _ next => n :: next.roots (n + 1)
  | block _ _ inner next => n :: next.roots (n + 1 + inner.size)

/-- The cells from `n` on. -/
def cells (n : ℕ) : Nest κ δ → List (RuleCell κ δ)
  | nil => []
  | leaf first rest perform next => ruleCell n first rest perform :: next.cells (n + 1)
  | block first rest inner next =>
    { idx := n, first, rest, rules := inner.roots (n + 1) } ::
      (inner.cells (n + 1) ++ next.cells (n + 1 + inner.size))

/-- The memory when there is nothing else in it. -/
def memory (n : Nest κ δ) : RuleMemory κ δ where
  cells := n.cells 0
  roots := n.roots 0
  ruleidx := n.size

/-- A nest takes as many cells as it has rules. -/
@[simp] theorem length_cells (n : ℕ) (nest : Nest κ δ) : (nest.cells n).length = nest.size := by
  induction nest generalizing n with
  | nil => rfl
  | leaf first rest perform next ih => rw [cells, size, List.length_cons, ih]
  | block first rest inner next ihi ih =>
    rw [cells, size, List.length_cons, List.length_append, ihi, ih]

/-- A rule without nested rules is read from its cell. -/
theorem read_leaf {cells : List (RuleCell κ δ)} {k n : ℕ} {first : Expritem κ}
    {rest : List (Expritem κ)} {perform : Perform δ}
    (h : cells[n]? = some (ruleCell n first rest perform)) :
    RuleMemory.read cells (k + 1) n = some (leafRule n first rest perform) := by
  rw [RuleMemory.read, h]
  cases perform <;> simp [ruleCell, leafRule]

/-- The rules are read back from anywhere in memory. -/
theorem read_cells (nest : Nest κ δ) {k : ℕ} (hk : nest.size ≤ k)
    (pre post : List (RuleCell κ δ)) :
    (nest.roots pre.length).mapM
        (RuleMemory.read (pre ++ nest.cells pre.length ++ post) k) =
      some (nest.build pre.length) := by
  induction nest generalizing k pre post with
  | nil => rfl
  | leaf first rest perform next ih =>
    rw [size] at hk
    obtain ⟨k, rfl⟩ : ∃ k', k = k' + 1 := ⟨k - 1, by omega⟩
    have hnext := ih (k := k + 1) (by omega)
      (pre ++ [ruleCell pre.length first rest perform]) post
    rw [List.length_append, List.length_singleton] at hnext
    have hmem : pre ++ (leaf first rest perform next).cells pre.length ++ post =
        pre ++ [ruleCell pre.length first rest perform] ++ next.cells (pre.length + 1) ++ post := by
      simp [cells]
    have hread : (pre ++ [ruleCell pre.length first rest perform] ++
        next.cells (pre.length + 1) ++ post)[pre.length]? =
        some (ruleCell pre.length first rest perform) := by
      simp
    rw [hmem, roots, List.mapM_cons, read_leaf hread, hnext]
    rfl
  | block first rest inner next ihi ih =>
    rw [size] at hk
    obtain ⟨k, rfl⟩ : ∃ k', k = k' + 1 := ⟨k - 1, by omega⟩
    let cell : RuleCell κ δ :=
      { idx := pre.length, first, rest, rules := inner.roots (pre.length + 1) }
    let mem := pre ++ [cell] ++ inner.cells (pre.length + 1) ++
      next.cells (pre.length + 1 + inner.size) ++ post
    have hmem : pre ++ (block first rest inner next).cells pre.length ++ post = mem := by
      simp [cells, cell, mem]
    have hinner : (inner.roots (pre.length + 1)).mapM (RuleMemory.read mem k) =
        some (inner.build (pre.length + 1)) := by
      have h := ihi (k := k) (by omega) (pre ++ [cell])
        (next.cells (pre.length + 1 + inner.size) ++ post)
      rw [List.length_append, List.length_singleton, ← List.append_assoc] at h
      exact h
    have hnext : (next.roots (pre.length + 1 + inner.size)).mapM
        (RuleMemory.read mem (k + 1)) = some (next.build (pre.length + 1 + inner.size)) := by
      have h := ih (k := k + 1) (by omega) (pre ++ [cell] ++ inner.cells (pre.length + 1))
        post
      rw [List.length_append, List.length_append, List.length_singleton, length_cells] at h
      exact h
    have hcell : mem[pre.length]? = some cell := by
      simp [mem]
    have hread : RuleMemory.read mem (k + 1) pre.length =
        some (.mk pre.length first rest none true none [] (inner.build (pre.length + 1))) := by
      rw [RuleMemory.read, hcell]
      simp only [Option.bind_eq_bind, Option.bind_some]
      rw [show cell.rules = inner.roots (pre.length + 1) from rfl, hinner]
      rfl
    rw [hmem, roots, List.mapM_cons, hread]
    simp only [Option.bind_eq_bind, Option.bind_some, hnext]
    rfl

/-- The rules of a nest are read back from memory. -/
theorem memory_rules (nest : Nest κ δ) : nest.memory.rules = some (nest.build 0) := by
  have h := read_cells nest (Nat.le_refl nest.size) [] []
  rw [List.nil_append, List.append_nil] at h
  show (nest.roots 0).mapM (RuleMemory.read (nest.cells 0) (nest.cells 0).length) = _
  rw [length_cells]
  exact h

end Nest

/-! ## Parsing the text -/

/-- A command about rules. -/
def Command.isRule : Command φ κ δ → Bool
  | .rule _ _ _ | .openRule _ _ | .close => true
  | _ => false

namespace RuleMemory

/-- What a command does to the rules. -/
def step (m : RuleMemory κ δ) : Command φ κ δ → Parsed (RuleMemory κ δ)
  | .rule first rest perform => .ok (m.perform first rest perform)
  | .openRule first rest => .ok (m.openRule first rest)
  | .close => m.close
  | _ => .ok m

/-- The rules at `as` and their cells are added at the end of the rules of `parse_rule`. -/
def grow (m : RuleMemory κ δ) (as : List ℕ) (cells : List (RuleCell κ δ)) : RuleMemory κ δ :=
  match m.rule with
  | none =>
    { m with
      cells := m.cells ++ cells, roots := m.roots ++ as, ruleidx := m.ruleidx + cells.length }
  | some a =>
    { m with
      cells := m.cells.modify a (fun cell => { cell with rules := cell.rules ++ as }) ++ cells
      ruleidx := m.ruleidx + cells.length }

/-- Every rule has its cell, and behind the NULL that `parse_rule` begins with there are rules. -/
structure Good (m : RuleMemory κ δ) : Prop where
  ruleidx : m.ruleidx = m.cells.length
  stack : ∃ as : List ℕ, m.rulestack ++ [m.rule] = none :: as.map some ∧
    ∀ a ∈ as, a < m.cells.length

variable {m : RuleMemory κ δ} {as bs : List ℕ} {cells cells' : List (RuleCell κ δ)}

/-- The cells that are added. -/
theorem length_grow : (m.grow as cells).cells.length = m.cells.length + cells.length := by
  unfold grow
  split <;> simp

@[simp] theorem rule_grow : (m.grow as cells).rule = m.rule := by
  unfold grow
  split <;> next h => exact h.symm ▸ rfl

@[simp] theorem rulestack_grow : (m.grow as cells).rulestack = m.rulestack := by
  unfold grow
  split <;> rfl

/-- The rule that is open is in memory. -/
theorem Good.rule (h : m.Good) {a : ℕ} (ha : m.rule = some a) : a < m.cells.length := by
  obtain ⟨as, has, hlt⟩ := h.stack
  have hmem : some a ∈ m.rulestack ++ [m.rule] := by
    rw [ha]
    exact List.mem_append_right _ List.mem_cons_self
  rw [has] at hmem
  simp only [List.mem_cons, reduceCtorEq, List.mem_map, Option.some.injEq, exists_eq_right,
    false_or] at hmem
  exact hlt a hmem

/-- No rule is open just when the stack is empty. -/
theorem Good.rule_eq_none (h : m.Good) : m.rule = none ↔ m.rulestack = [] := by
  obtain ⟨as, has, -⟩ := h.stack
  cases as using List.reverseRecOn with
  | nil =>
    have has : m.rulestack ++ [m.rule] = [] ++ [none] := has
    obtain ⟨hstack, hrule⟩ := List.append_inj' has rfl
    exact ⟨fun _ => hstack, fun _ => (List.cons.inj hrule).1⟩
  | append_singleton as a =>
    rw [List.map_append, ← List.cons_append] at has
    obtain ⟨hstack, hrule⟩ := List.append_inj' has rfl
    rw [hstack, (List.cons.inj hrule).1]
    simp

/-- Rules that are added keep the stack. -/
theorem Good.grow (h : m.Good) : (m.grow as cells).Good := by
  obtain ⟨bs, hbs, hlt⟩ := h.stack
  refine ⟨?_, bs, ?_, fun b hb => ?_⟩
  · rw [length_grow, ← h.ruleidx]
    unfold RuleMemory.grow
    split <;> rfl
  · rw [rule_grow, rulestack_grow, hbs]
  · rw [length_grow]
    exact Nat.lt_add_right _ (hlt b hb)

/-- A cell in front of those that are added. -/
theorem modify_front {α : Type} {f : α → α} {l : List α} (l' : List α) {i : ℕ}
    (h : i < l.length) : (l ++ l').modify i f = l.modify i f ++ l' := by
  induction l generalizing i with
  | nil => exact absurd h (Nat.not_lt_zero i)
  | cons x l ih =>
    cases i with
    | zero => rfl
    | succ i =>
      show x :: (l ++ l').modify i f = x :: (l.modify i f ++ l')
      rw [ih (Nat.lt_of_succ_lt_succ h)]

/-- Rules are added one after another. -/
theorem grow_grow (h : m.Good) :
    (m.grow as cells).grow bs cells' = m.grow (as ++ bs) (cells ++ cells') := by
  cases hrule : m.rule with
  | none => simp [grow, hrule, Nat.add_assoc]
  | some a =>
    have hlt : a < (m.cells.modify a fun cell => { cell with rules := cell.rules ++ as }).length :=
      (List.length_modify _ _ _).symm ▸ h.rule hrule
    simp only [grow, hrule]
    rw [modify_front _ hlt, List.modify_modify_eq, List.append_assoc, List.length_append,
      Nat.add_assoc]
    simp only [Function.comp_def, List.append_assoc]

/-- One rule is added. -/
theorem add_eq_grow (h : m.Good) (cell : RuleCell κ δ) :
    m.add cell = m.grow [m.cells.length] [cell] := by
  cases hrule : m.rule with
  | none => simp only [add, grow, hrule, List.length_singleton]
  | some a => simp only [add, grow, hrule, List.length_singleton, modify_front _ (h.rule hrule)]

/-- A `{` goes onto the stack. -/
theorem Good.openRule (h : m.Good) (first : Expritem κ) (rest : List (Expritem κ)) :
    (m.openRule first rest).Good := by
  have hgood : (m.add { idx := m.ruleidx, first, rest }).Good := by
    rw [add_eq_grow h]
    exact h.grow
  have hlength : (m.openRule first rest).cells.length = m.cells.length + 1 := by
    show (m.add _).cells.length = _
    rw [add_eq_grow h, length_grow, List.length_singleton]
  obtain ⟨as, has, hlt⟩ := h.stack
  refine ⟨hgood.ruleidx, as ++ [m.cells.length], ?_, fun a ha => ?_⟩
  · show m.rulestack ++ [m.rule] ++ [some m.cells.length] = _
    rw [has, List.map_append]
    rfl
  · rw [hlength]
    rcases List.mem_append.mp ha with ha | ha
    · exact Nat.lt_succ_of_lt (hlt a ha)
    · rw [List.mem_singleton.mp ha]
      exact Nat.lt_succ_self _

/-- A `}` takes one off. -/
theorem Good.close (h : m.Good) (hrule : m.rule ≠ none) {m' : RuleMemory κ δ}
    (hclose : m.close = .ok m') :
    m'.Good ∧ m.rulestack.length = m'.rulestack.length + 1 := by
  have hne : m.rulestack ≠ [] := fun hstack => hrule (h.rule_eq_none.mpr hstack)
  rw [RuleMemory.close, check, if_neg hrule] at hclose
  cases hclose
  obtain ⟨as, has, hlt⟩ := h.stack
  refine ⟨⟨h.ruleidx, as.dropLast, ?_,
    fun a ha => hlt a ((List.dropLast_sublist as).subset ha)⟩, ?_⟩
  · -- what is popped was in front of the last rule
    have hjoin : m.rulestack.dropLast ++ [m.rulestack.getLast?.join] = m.rulestack := by
      rw [List.getLast?_eq_some_getLast hne, Option.join_some, List.dropLast_concat_getLast hne]
    have hpopped := congrArg List.dropLast has
    rw [List.dropLast_concat] at hpopped
    show m.rulestack.dropLast ++ [m.rulestack.getLast?.join] = _
    rw [hjoin, hpopped]
    cases as with
    | nil => exact absurd hpopped hne
    | cons a as =>
      rw [List.map_dropLast]
      rfl
  · show _ = m.rulestack.dropLast.length + 1
    rw [List.length_dropLast]
    have := List.length_pos_iff.mpr hne
    omega

theorem modify_last {α : Type} (f : α → α) (l : List α) (x : α) :
    (l ++ [x]).modify l.length f = l ++ [f x] := by
  induction l with
  | nil => rfl
  | cons y l ih =>
    show y :: (l ++ [x]).modify l.length f = _
    rw [ih]
    rfl

/-- What has been opened is closed, with the rules inside it. -/
theorem close_openRule (h : m.Good) (first : Expritem κ) (rest : List (Expritem κ)) :
    ((m.openRule first rest).grow as cells).close =
      .ok (m.grow [m.cells.length]
        ({ idx := m.cells.length, first, rest, rules := as } :: cells)) := by
  -- the cells in front of the new one
  obtain ⟨base, hlength, hbase⟩ : ∃ base : List (RuleCell κ δ), base.length = m.cells.length ∧
      ∀ more, (m.grow [m.cells.length] more).cells = base ++ more := by
    cases hrule : m.rule with
    | none => exact ⟨m.cells, rfl, fun more => by simp only [grow, hrule]⟩
    | some a => exact ⟨_, List.length_modify _ _ _, fun more => by simp only [grow, hrule]; rfl⟩
  have hopen : (m.openRule first rest).cells =
      base ++ [{ idx := m.cells.length, first, rest }] := by
    show (m.add _).cells = _
    rw [add_eq_grow h, hbase, h.ruleidx]
  have hcells : ((m.openRule first rest).grow as cells).cells =
      base ++ { idx := m.cells.length, first, rest, rules := as } :: cells := by
    show (m.openRule first rest).cells.modify m.cells.length _ ++ cells = _
    rw [hopen, ← hlength, modify_last, List.append_assoc]
    rfl
  have hroots : ((m.openRule first rest).grow as cells).roots =
      (m.grow [m.cells.length]
        ({ idx := m.cells.length, first, rest, rules := as } :: cells)).roots := by
    show (m.add _).roots = _
    rw [add_eq_grow h, grow, grow]
    split <;> rfl
  have hidx : ((m.openRule first rest).grow as cells).ruleidx =
      (m.grow [m.cells.length]
        ({ idx := m.cells.length, first, rest, rules := as } :: cells)).ruleidx := by
    show (m.add _).ruleidx + cells.length = _
    rw [add_eq_grow h, grow, grow]
    split <;> simp only [List.length_cons, List.length_nil] <;> omega
  have hrule : ((m.openRule first rest).grow as cells).rule = some m.cells.length := by
    rw [rule_grow]
    rfl
  have hstack : ((m.openRule first rest).grow as cells).rulestack = m.rulestack ++ [m.rule] := by
    rw [rulestack_grow]
    rfl
  rw [close, check, if_neg (by rw [hrule]; nofun)]
  refine congrArg Except.ok (RuleMemory.ext ?_ hroots hidx ?_ ?_)
  · show ((m.openRule first rest).grow as cells).cells = _
    rw [hcells, hbase]
  · show ((m.openRule first rest).grow as cells).rulestack.dropLast = _
    rw [hstack, List.dropLast_concat, rulestack_grow]
  · show ((m.openRule first rest).grow as cells).rulestack.getLast?.join = _
    rw [hstack, List.getLast?_concat, rule_grow]
    rfl

theorem grow_nil (m : RuleMemory κ δ) : m.grow [] [] = m := by
  have hid : (fun cell : RuleCell κ δ => { cell with rules := cell.rules ++ [] }) = id := by
    funext cell
    rw [List.append_nil]
    rfl
  unfold grow
  split
  · rw [List.append_nil, List.append_nil]
    rfl
  · rw [hid, List.modify_id, List.append_nil]
    rfl

/-- The cells of a nest are added where the parser stands. -/
theorem foldlM_commands (nest : Nest κ δ) (h : m.Good) :
    (nest.commands (φ := φ)).foldlM step m =
      .ok (m.grow (nest.roots m.cells.length) (nest.cells m.cells.length)) := by
  induction nest generalizing m with
  | nil => exact congrArg Except.ok (grow_nil m).symm
  | leaf first rest perform next ih =>
    have hperform : m.perform first rest perform =
        m.grow [m.cells.length] [ruleCell m.cells.length first rest perform] := by
      rw [RuleMemory.perform, add_eq_grow h, h.ruleidx]
    have hlength : (m.grow [m.cells.length]
        [ruleCell m.cells.length first rest perform]).cells.length = m.cells.length + 1 :=
      length_grow
    show (next.commands (φ := φ)).foldlM step (m.perform first rest perform) = _
    rw [hperform, ih h.grow, grow_grow h, hlength]
    rfl
  | block first rest inner next ihi ih =>
    show (inner.commands ++ Command.close :: next.commands : List (Command φ κ δ)).foldlM step
      (m.openRule first rest) = _
    have hopen : (m.openRule first rest).cells.length = m.cells.length + 1 := by
      show (m.add _).cells.length = _
      rw [add_eq_grow h, length_grow, List.length_singleton]
    rw [List.foldlM_append, ihi (h.openRule first rest)]
    show (((m.openRule first rest).grow _ _).close >>= fun m =>
      (next.commands (φ := φ)).foldlM step m) = _
    rw [close_openRule h]
    show (next.commands (φ := φ)).foldlM step _ = _
    rw [ih h.grow, grow_grow h, length_grow, hopen, List.length_cons, Nest.length_cells,
      ← Nat.add_assoc, Nat.add_right_comm]
    rfl

/-! ## Text that is not finished -/

/-- Some rules have been opened: what is in front of each of them, its expression, and what is
inside the last one. -/
def unfinished :
    List (Nest κ δ × Expritem κ × List (Expritem κ)) → Nest κ δ → List (Command φ κ δ)
  | [], nest => nest.commands
  | (before, first, rest) :: outer, nest =>
    unfinished outer before ++ .openRule first rest :: nest.commands

/-- Rules go on in the innermost nest. -/
theorem unfinished_append (frames : List (Nest κ δ × Expritem κ × List (Expritem κ)))
    (a b : Nest κ δ) : unfinished frames (a.append b) =
      (unfinished frames a ++ b.commands : List (Command φ κ δ)) := by
  cases frames with
  | nil => exact Nest.commands_append a b
  | cons frame outer =>
    obtain ⟨before, first, rest⟩ := frame
    simp only [unfinished, Nest.commands_append, List.append_assoc, List.cons_append]

theorem good_empty : ({} : RuleMemory κ δ).Good := ⟨rfl, [], rfl, nofun⟩

/-- What the parser has read is a text with as many rules opened as there are on its stack. -/
theorem exists_unfinished {cmds : List (Command φ κ δ)} (hrule : ∀ c ∈ cmds, c.isRule = true)
    (h : cmds.foldlM step {} = .ok m) :
    m.Good ∧ ∃ frames nest, cmds = unfinished frames nest ∧
      frames.length = m.rulestack.length := by
  induction cmds using List.reverseRecOn generalizing m with
  | nil =>
    cases h
    exact ⟨good_empty, [], .nil, rfl, rfl⟩
  | append_singleton cmds c ih =>
    rw [List.foldlM_append] at h
    cases hrun : cmds.foldlM step {} with
    | error e =>
      rw [hrun] at h
      cases h
    | ok m₁ =>
      rw [hrun] at h
      have hstep : m₁.step c = .ok m := by
        rw [← h]
        show _ = (step m₁ c >>= fun m => .ok m)
        cases step m₁ c <;> rfl
      obtain ⟨hgood, frames, nest, rfl, hlength⟩ :=
        ih (fun d hd => hrule d (List.mem_append_left _ hd)) hrun
      cases c with
      | rule first rest perform =>
        cases hstep
        refine ⟨?_, frames, nest.append (.leaf first rest perform .nil), ?_, ?_⟩
        · rw [RuleMemory.perform, add_eq_grow hgood]
          exact hgood.grow
        · rw [unfinished_append]
          rfl
        · rw [RuleMemory.perform, add_eq_grow hgood, rulestack_grow]
          exact hlength
      | openRule first rest =>
        cases hstep
        refine ⟨hgood.openRule first rest, (nest, first, rest) :: frames, .nil, rfl, ?_⟩
        show frames.length + 1 = (m₁.rulestack ++ [m₁.rule]).length
        rw [List.length_append, hlength]
        rfl
      | close =>
        have hrule₁ : m₁.rule ≠ none := by
          intro hnone
          rw [step, RuleMemory.close, check, if_pos hnone] at hstep
          cases hstep
        obtain ⟨hgood', hstack⟩ := hgood.close hrule₁ hstep
        cases frames with
        | nil =>
          rw [hstack] at hlength
          cases hlength
        | cons frame outer =>
          obtain ⟨before, first, rest⟩ := frame
          refine ⟨hgood', outer, before.append (.block first rest nest .nil), ?_, ?_⟩
          · rw [unfinished_append, unfinished, List.append_assoc]
            rfl
          · rw [hstack] at hlength
            exact Nat.succ.inj hlength
      | _ =>
        have hc := hrule _ (List.mem_append_right _ List.mem_cons_self)
        cases hc

/-- The parser is inside no rule after a text, and only then. -/
theorem foldlM_eq_iff {cmds : List (Command φ κ δ)} (hrule : ∀ c ∈ cmds, c.isRule = true) :
    (cmds.foldlM step {} = .ok m ∧ m.rulestack = []) ↔
      ∃ nest : Nest κ δ, cmds = nest.commands ∧ m = nest.memory := by
  have hmemory : ∀ nest : Nest κ δ, (nest.commands (φ := φ)).foldlM step {} = .ok nest.memory := by
    intro nest
    rw [foldlM_commands nest good_empty, grow]
    simp [Nest.memory]
  constructor
  · rintro ⟨hrun, hstack⟩
    obtain ⟨-, frames, nest, rfl, hlength⟩ := exists_unfinished hrule hrun
    rw [hstack] at hlength
    obtain rfl := List.eq_nil_of_length_eq_zero hlength
    exact ⟨nest, rfl, Except.ok.inj (hrun.symm.trans (hmemory nest))⟩
  · rintro ⟨nest, rfl, rfl⟩
    exact ⟨hmemory nest, rfl⟩

end RuleMemory

/-! ## Files -/

/-- The commands about rules, and the others. -/
def ruleCommands (cmds : List (Command φ κ δ)) : List (Command φ κ δ) := cmds.filter Command.isRule

def otherCommands (cmds : List (Command φ κ δ)) : List (Command φ κ δ) :=
  cmds.filter fun c => !c.isRule

section
variable {env : Env} {p p' : Parser φ κ δ} {c : Command φ κ δ}

/-- A command about a rule changes the rules only. -/
theorem step_rule (hc : c.isRule = true) :
    p.step env c = (p.rules.step c).map fun m => { p with rules := m } := by
  cases c with
  | rule first rest perform => rfl
  | openRule first rest => rfl
  | close =>
    show (p.rules.close >>= fun m => _) = p.rules.close.map _
    cases p.rules.close <;> rfl
  | _ => cases hc

theorem map_bind {α β γ : Type} (x : Parsed α) (f : α → Parsed β) (g : β → γ) :
    (x >>= f).map g = x >>= fun a => (f a).map g := by
  cases x <;> rfl

/-- The other commands do not look at the rules. -/
theorem step_other (hc : c.isRule = false) (m : RuleMemory κ δ) :
    ({ p with rules := m } : Parser φ κ δ).step env c =
      (p.step env c).map fun q => { q with rules := m } := by
  cases c with
  | rule first rest perform => cases hc
  | openRule first rest => cases hc
  | close => cases hc
  | _ =>
    simp only [Parser.step, map_bind]
    rfl

/-- The other commands leave the rules alone. -/
theorem run_other {cmds : List (Command φ κ δ)} (hc : ∀ c ∈ cmds, c.isRule = false)
    (p : Parser φ κ δ) (m : RuleMemory κ δ) :
    cmds.foldlM (Parser.step env) { p with rules := m } =
      (cmds.foldlM (Parser.step env) p).map fun q => { q with rules := m } := by
  induction cmds generalizing p with
  | nil => rfl
  | cons c cmds ih =>
    rw [List.foldlM_cons, List.foldlM_cons, step_other (hc c List.mem_cons_self), map_bind]
    cases p.step env c with
    | error e => rfl
    | ok q => exact ih (fun d hd => hc d (List.mem_cons_of_mem _ hd)) q

theorem isRule_ruleCommands {cmds : List (Command φ κ δ)} :
    ∀ c ∈ ruleCommands cmds, c.isRule = true := fun _ hc => (List.mem_filter.mp hc).2

theorem isRule_otherCommands {cmds : List (Command φ κ δ)} :
    ∀ c ∈ otherCommands cmds, c.isRule = false := by
  intro c hc
  simpa using (List.mem_filter.mp hc).2

/-- The rules and the rest of a file do not disturb each other. -/
theorem run_eq_iff {cmds : List (Command φ κ δ)} :
    cmds.foldlM (Parser.step env) p = .ok p' ↔
      ∃ q m, (otherCommands cmds).foldlM (Parser.step env) p = .ok q ∧
        (ruleCommands cmds).foldlM RuleMemory.step p.rules = .ok m ∧
        p' = { q with rules := m } := by
  induction cmds generalizing p with
  | nil =>
    constructor
    · intro h
      cases h
      exact ⟨_, _, rfl, rfl, rfl⟩
    · rintro ⟨q, m, hq, hm, rfl⟩
      cases hq
      cases hm
      rfl
  | cons c cmds ih =>
    by_cases hc : c.isRule = true
    · have hothers : otherCommands (c :: cmds) = otherCommands cmds :=
        List.filter_cons_of_neg (by simp [hc])
      have hrules : ruleCommands (c :: cmds) = c :: ruleCommands cmds :=
        List.filter_cons_of_pos hc
      rw [hothers, hrules, List.foldlM_cons, List.foldlM_cons, step_rule hc]
      cases p.rules.step c with
      | error e => exact ⟨nofun, fun ⟨_, _, _, h, _⟩ => nomatch h⟩
      | ok m₁ =>
        refine (ih (p := { p with rules := m₁ })).trans ?_
        rw [run_other isRule_otherCommands]
        constructor
        · rintro ⟨q, m, hq, hm, rfl⟩
          cases hrun : (otherCommands cmds).foldlM (Parser.step env) p with
          | error e =>
            rw [hrun] at hq
            cases hq
          | ok q' =>
            rw [hrun] at hq
            cases hq
            exact ⟨q', m, rfl, hm, rfl⟩
        · rintro ⟨q, m, hq, hm, rfl⟩
          rw [hq]
          exact ⟨_, m, rfl, hm, rfl⟩
    · have hothers : otherCommands (c :: cmds) = c :: otherCommands cmds :=
        List.filter_cons_of_pos (by simpa using hc)
      have hrules : ruleCommands (c :: cmds) = ruleCommands cmds := List.filter_cons_of_neg hc
      have hkept : p.step env c = (p.step env c).map fun q => { q with rules := p.rules } :=
        step_other (by simpa using hc) p.rules
      rw [hothers, hrules, List.foldlM_cons, List.foldlM_cons]
      cases hstep : p.step env c with
      | error e => exact ⟨nofun, fun ⟨_, _, h, _⟩ => nomatch h⟩
      | ok q =>
        rw [hstep] at hkept
        have hq : q = { q with rules := p.rules } :=
          Except.ok.inj hkept
        rw [show p.rules = q.rules from (congrArg Parser.rules hq).symm]
        exact ih

/-- Where `parse_conf` ends. -/
theorem finish_eq_iff {x : Parsed (Parser φ κ δ)} :
    (do
      let p ← x
      check (p.rules.rulestack ≠ []) .missingClose
      return p) = .ok p ↔ x = .ok p ∧ p.rules.rulestack = [] := by
  cases x with
  | error e => exact ⟨nofun, fun h => nomatch h.1⟩
  | ok q =>
    show (check (q.rules.rulestack ≠ []) .missingClose >>= fun _ => .ok q) = _ ↔ _
    unfold check
    split_ifs with hstack
    · refine ⟨nofun, ?_⟩
      rintro ⟨h, hnil⟩
      cases h
      exact absurd hnil hstack
    · refine ⟨fun h => ?_, fun h => h.1⟩
      cases h
      exact ⟨rfl, not_not.mp hstack⟩

/-- A file is accepted if and only if it is without its rules, and these are nested in each other;
and the rules that the parser leaves in memory are the ones that are meant. -/
theorem parse_iff (env : Env) (arguments : List (List Char)) (cmds : List (Command φ κ δ))
    (p : Parser φ κ δ) :
    parseConf env arguments cmds = .ok p ↔
      ∃ (q : Parser φ κ δ) (nest : Nest κ δ), parseConf env arguments (otherCommands cmds) = .ok q ∧
        ruleCommands cmds = nest.commands ∧ p = { q with rules := nest.memory } ∧
        p.rules.rules = some (nest.build 0) := by
  unfold parseConf
  cases arguments.foldlM (fun t s => return t.argument (← extractMacro s)) ({} : MacroTable) with
  | error e => exact ⟨nofun, fun ⟨_, _, h, _⟩ => nomatch h⟩
  | ok macros =>
    refine finish_eq_iff.trans ?_
    rw [run_eq_iff]
    constructor
    · rintro ⟨⟨q, m, hq, hm, rfl⟩, hstack⟩
      obtain ⟨nest, hnest, rfl⟩ :=
        (RuleMemory.foldlM_eq_iff isRule_ruleCommands).mp ⟨hm, hstack⟩
      refine ⟨q, nest, finish_eq_iff.mpr ⟨hq, ?_⟩, hnest, rfl, nest.memory_rules⟩
      have hkept : (otherCommands cmds).foldlM (Parser.step env) { macros := macros } =
          ((otherCommands cmds).foldlM (Parser.step env) { macros := macros }).map
            fun q => { q with rules := {} } :=
        run_other isRule_otherCommands { macros := macros } {}
      rw [hq] at hkept
      have hrules : q = { q with rules := {} } := Except.ok.inj hkept
      rw [hrules]
    · rintro ⟨q, nest, hq, hnest, rfl, -⟩
      obtain ⟨hm, hstack⟩ := (RuleMemory.foldlM_eq_iff isRule_ruleCommands).mpr ⟨nest, hnest, rfl⟩
      exact ⟨⟨q, nest.memory, (finish_eq_iff.mp hq).1, hm, rfl⟩, hstack⟩

end

end Fdm.Conf
