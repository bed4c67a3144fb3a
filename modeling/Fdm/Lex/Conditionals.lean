import Fdm.Lex.Defs
import Mathlib.Data.List.Count

/-!
# Conditionals

The tokens of a text whose every enclosing conditional holds, and the tokens that `yylex` returns.
`Scans` reads a text with a stack of the conditionals that are open; it is what the manual says of
`ifdef`, `ifndef`, `endif` and `include`. The lexer has a depth and a flag.
-/

namespace Fdm.Lex

/-! ## What a text says -/

/-- Every enclosing conditional holds. -/
def live (conds : List Bool) : Bool := conds.all id

/-- An item of a text that has been read: whether every conditional around it holds, and whether one
that does not hold was opened since the nesting was last zero. -/
structure Seen where
  item : Item
  live : Bool
  missed : Bool
deriving DecidableEq, Repr

/-- The text of some open files, inside some conditionals, can be read to its end. -/
inductive Scans (env : Env) : Place → List Bool → Bool → List Seen → Prop
  | finish {cs rest : List Char} {missed : Bool} :
      readItem (env.macros [cs]) cs = .ok (none, rest) → Scans env [cs] [] missed []
  | pop {cs rest f : List Char} {fs : Place} {conds : List Bool} {missed : Bool}
      {trace : List Seen} :
      readItem (env.macros (cs :: f :: fs)) cs = .ok (none, rest) →
      Scans env (f :: fs) conds missed trace → Scans env (cs :: f :: fs) conds missed trace
  | token {cs rest : List Char} {fs : Place} {conds : List Bool} {missed : Bool}
      {trace : List Seen} {t : Tok} :
      readItem (env.macros (cs :: fs)) cs = .ok (some (.token t), rest) →
      Scans env (rest :: fs) conds missed trace →
      Scans env (cs :: fs) conds missed (⟨.token t, live conds, missed⟩ :: trace)
  | ifdef {cs rest : List Char} {fs : Place} {conds : List Bool} {missed : Bool}
      {trace : List Seen} {negated defined : Bool} :
      readItem (env.macros (cs :: fs)) cs = .ok (some (.ifdef negated defined), rest) →
      Scans env (rest :: fs) ((negated != defined) :: conds) (missed || negated == defined) trace →
      Scans env (cs :: fs) conds missed (⟨.ifdef negated defined, live conds, missed⟩ :: trace)
  | endif {cs rest : List Char} {fs : Place} {c : Bool} {conds : List Bool} {missed : Bool}
      {trace : List Seen} :
      readItem (env.macros (cs :: fs)) cs = .ok (some .endif, rest) →
      Scans env (rest :: fs) conds (missed && !conds.isEmpty) trace →
      Scans env (cs :: fs) (c :: conds) missed (⟨.endif, live (c :: conds), missed⟩ :: trace)
  | skipped {cs rest : List Char} {fs : Place} {conds : List Bool} {missed : Bool}
      {trace : List Seen} :
      readItem (env.macros (cs :: fs)) cs = .ok (some .incl, rest) → live conds = false →
      Scans env (rest :: fs) conds missed trace →
      Scans env (cs :: fs) conds missed (⟨.incl, false, missed⟩ :: trace)
  | incl {cs rest content rest' : List Char} {fs : Place} {conds : List Bool} {missed : Bool}
      {trace : List Seen} :
      readItem (env.macros (cs :: fs)) cs = .ok (some .incl, rest) → live conds = true →
      readInclude env (env.macros (rest :: fs)) rest = .ok (content, rest') →
      Scans env (content :: rest' :: fs) conds missed trace →
      Scans env (cs :: fs) conds missed (⟨.incl, true, missed⟩ :: trace)

/-- The token of an item. -/
def Item.tok : Item → Option Tok
  | token t => some t
  | _ => none

/-- The tokens whose every enclosing conditional holds. -/
def liveTokens (trace : List Seen) : List Tok :=
  trace.filterMap fun e => if e.live then e.item.tok else none

/-! ## What `yylex` returns -/

/-- Calls of `yylex` up to the end of the text return some tokens. -/
inductive Yields (env : Env) : Lexer → List Tok → Prop
  | finish {s s' : Lexer} {n : ℕ} : yylex env n s = some (.ok (none, s')) → Yields env s []
  | next {s s' : Lexer} {n : ℕ} {t : Tok} {ts : List Tok} :
      yylex env n s = some (.ok (some t, s')) → Yields env s' ts → Yields env s (t :: ts)

/-- A token that the grammar uses. -/
def Tok.real (t : Tok) : Bool := t ≠ .none

/-- The tokens that the lexer returns: those before which no conditional has failed since the nesting
was last zero. -/
def shownTokens (trace : List Seen) : List Tok :=
  trace.filterMap fun e => if e.missed then none else e.item.tok

/-! ## Fuel -/

section Fuel

variable {env : Env} {s : Lexer} {r r' : Except LexError (Option Tok × Lexer)}

theorem restart_succ {n : ℕ} (h : restart env n s = some r) : restart env (n + 1) s = some r := by
  induction n generalizing s with
  | zero => cases h
  | succ n ih =>
    rw [restart] at h ⊢
    split <;> simp_all
    · split <;> simp_all
    · split <;> simp_all
      split <;> simp_all

theorem restart_mono {n m : ℕ} (hle : n ≤ m) (h : restart env n s = some r) :
    restart env m s = some r := by
  obtain ⟨k, rfl⟩ := Nat.exists_eq_add_of_le hle
  induction k with
  | zero => exact h
  | succ k ih => exact restart_succ (ih (Nat.le_add_right n k))

theorem yylex_mono {n m : ℕ} (hle : n ≤ m) (h : yylex env n s = some r) :
    yylex env m s = some r := by
  unfold yylex at h ⊢
  split at h
  · next hincl =>
    rw [if_pos hincl]
    split at h
    · exact h
    · exact restart_mono hle h
  · next hincl =>
    rw [if_neg hincl]
    exact restart_mono hle h

/-- A call returns one thing, however often its loop may run. -/
theorem yylex_unique {n m : ℕ} (h : yylex env n s = some r) (h' : yylex env m s = some r') :
    r = r' := by
  have hn := yylex_mono (Nat.le_max_left n m) h
  have hm := yylex_mono (Nat.le_max_right n m) h'
  exact Option.some_inj.mp (hn.symm.trans hm)

theorem Yields.unique {ts ts' : List Tok} (h : Yields env s ts) (h' : Yields env s ts') :
    ts = ts' := by
  induction h generalizing ts' with
  | finish hcall =>
    cases h' with
    | finish _ => rfl
    | next hcall' _ => cases yylex_unique hcall hcall'
  | next hcall _ ih =>
    cases h' with
    | finish hcall' => cases yylex_unique hcall hcall'
    | next hcall' hrest =>
      cases yylex_unique hcall hcall'
      rw [ih hrest]

end Fuel

/-! ## One pass of the loop -/

section Pass

variable {env : Env} {s s' : Lexer} {ts : List Tok}

theorem yylex_restart (h : s.lexInclude = false) (n : ℕ) : yylex env n s = restart env n s := by
  rw [yylex, if_neg (by simp [h])]

/-- The loop goes on from another state. -/
theorem yields_again (hs : s.lexInclude = false) (hs' : s'.lexInclude = false)
    (h : ∀ n, restart env (n + 1) s = restart env n s') (hrest : Yields env s' ts) :
    Yields env s ts := by
  have hcall : ∀ n, yylex env (n + 1) s = yylex env n s' := by
    intro n
    rw [yylex_restart hs, yylex_restart hs', h]
  cases hrest with
  | finish hn => exact .finish ((hcall _).trans hn)
  | next hn hrest => exact .next ((hcall _).trans hn) hrest

/-- A token is returned. -/
theorem yields_returned {t : Tok} (hs : s.lexInclude = false)
    (h : restart env 1 s = some (.ok (some t, s'))) (hrest : Yields env s' ts) :
    Yields env s (t :: ts) :=
  .next ((yylex_restart hs 1).trans h) hrest

theorem restart_pop {cs f : List Char} {fs : Place} {rest : List Char} {depth : ℕ} {skip : Bool}
    (h : readItem (env.macros (cs :: f :: fs)) cs = .ok (none, rest)) (n : ℕ) :
    restart env (n + 1) ⟨cs, f :: fs, false, depth, skip⟩ =
      restart env n ⟨f, fs, false, depth, skip⟩ := by
  rw [restart]
  simp only [Lexer.place, h]

/-- An item has been read, and `read_token` has decided what to do about it. -/
theorem restart_item {rest : List Char} {item : Item} {t : Tok}
    (h : readItem (env.macros s.place) s.file = .ok (some item, rest))
    (htoken : readToken { s with file := rest } item = .ok (t, s')) (n : ℕ) :
    restart env (n + 1) s = if s'.lexSkip then restart env n s' else some (.ok (some t, s')) := by
  rw [restart]
  simp only [h, htoken]

/-- What `read_token` decides is not returned. -/
theorem yields_hidden {rest : List Char} {item : Item} {t : Tok}
    (hs : s.lexInclude = false) (h : readItem (env.macros s.place) s.file = .ok (some item, rest))
    (htoken : readToken { s with file := rest } item = .ok (t, s')) (hs' : s'.lexInclude = false)
    (hskip : s'.lexSkip = true) (hrest : Yields env s' ts) : Yields env s ts := by
  refine yields_again hs hs' (fun n => ?_) hrest
  rw [restart_item h htoken n, if_pos hskip]

/-- What `read_token` decides is returned. -/
theorem yields_shown {rest : List Char} {item : Item} {t : Tok}
    (hs : s.lexInclude = false) (h : readItem (env.macros s.place) s.file = .ok (some item, rest))
    (htoken : readToken { s with file := rest } item = .ok (t, s')) (hskip : s'.lexSkip = false)
    (hrest : Yields env s' ts) : Yields env s (t :: ts) := by
  refine yields_returned hs ?_ hrest
  rw [restart_item h htoken 0, if_neg (by simp [hskip])]

end Pass

/-! ## Reading a text -/

/-- Behind an `ifdef` no conditional has failed: it holds, and so does what is around it. -/
theorem live_ifdef {conds : List Bool} {missed negated defined : Bool}
    (h : missed = false → live conds = true) (hnot : (missed || negated == defined) = false) :
    live ((negated != defined) :: conds) = true := by
  simp only [Bool.or_eq_false_iff] at hnot
  simpa [live, bne, hnot.2] using h hnot.1

/-- Behind an `endif` no conditional has failed: there is none, or it was so before. -/
theorem live_endif {conds : List Bool} {c missed : Bool} (h : missed = false → live (c :: conds) = true)
    (hnot : (missed && !conds.isEmpty) = false) : live conds = true := by
  cases hm : missed with
  | true =>
    obtain rfl : conds = [] := by simpa [hm] using hnot
    rfl
  | false =>
    have hall := h hm
    simp only [live, List.all_cons, Bool.and_eq_true] at hall
    exact hall.2

theorem map_ok {ε α β : Type} {f : α → β} {x : Except ε α} {b : β} (h : x.map f = .ok b) :
    ∃ a, x = .ok a ∧ f a = b := by
  cases x with
  | error e => cases h
  | ok a => exact ⟨a, rfl, by simpa [Except.map] using h⟩

theorem readMacroOrCommand_real {find : Macros} {type : Char} {cs rest : List Char} {t : Tok}
    (h : readMacroOrCommand find type cs = .ok (.token t, rest)) : t.real = true := by
  unfold readMacroOrCommand at h
  split at h
  · obtain ⟨a, -, ha⟩ := map_ok h
    obtain ⟨ht, -⟩ := Prod.mk.inj ha
    split_ifs at ht <;> cases ht <;> rfl
  · split_ifs at h
    all_goals
      obtain ⟨a, -, ha⟩ := map_ok h
      cases ha
      rfl
  · cases h

theorem readWord_real {find : Macros} {ch : Char} {cs rest : List Char} {t : Tok}
    (h : readWord find ch cs = .ok (.token t, rest)) : t.real = true := by
  unfold readWord at h
  dsimp only at h
  split_ifs at h
  · -- `ifdef` and `ifndef`
    split at h
    · split_ifs at h
      split at h
      · cases h
      · split_ifs at h
        obtain ⟨a, -, ha⟩ := map_ok h
        cases ha
    · cases h
  · cases h
  · cases h
  · split at h <;> cases h
    rfl

/-- An item is never the placeholder. -/
theorem readItem_real {find : Macros} {cs rest : List Char} {t : Tok}
    (h : readItem find cs = .ok (some (.token t), rest)) : t.real = true := by
  unfold readItem at h
  dsimp only at h
  split at h
  · cases h
  · split_ifs at h
    · obtain ⟨a, -, ha⟩ := map_ok h
      cases ha
      rfl
    · obtain ⟨⟨item, cs⟩, ha, hitem⟩ := map_ok h
      cases hitem
      exact readMacroOrCommand_real ha
    · split at h <;> cases h <;> rfl
    · split at h <;> cases h <;> rfl
    · cases h
      rfl
    · obtain ⟨a, -, ha⟩ := map_ok h
      cases ha
      rfl
    · obtain ⟨⟨item, cs⟩, ha, hitem⟩ := map_ok h
      cases hitem
      exact readWord_real ha

/-- The lexer reads a text that can be read, in which each `include` stands where no conditional has
failed since the nesting was last zero. -/
theorem yields_of_scans {env : Env} {place : Place} {conds : List Bool} {missed : Bool}
    {trace : List Seen} (h : Scans env place conds missed trace)
    (hincl : ∀ e ∈ trace, e.item = .incl → e.missed = false) {cs : List Char} {fs : Place}
    (hplace : place = cs :: fs) (hmissed : missed = false → live conds = true) :
    ∃ ts, Yields env ⟨cs, fs, false, conds.length, missed⟩ ts ∧
      ts.filter Tok.real = shownTokens trace := by
  induction h generalizing cs fs with
  | @finish cs rest missed hread =>
    obtain ⟨rfl, rfl⟩ := List.cons_eq_cons.mp hplace
    refine ⟨[], @Yields.finish _ _ ⟨[], [], false, 0, missed⟩ 1 ?_, rfl⟩
    rw [yylex_restart rfl, restart]
    simp only [Lexer.place, hread]
    rfl
  | pop hread _ ih =>
    obtain ⟨rfl, rfl⟩ := List.cons_eq_cons.mp hplace
    obtain ⟨ts, hyields, hts⟩ := ih hincl rfl hmissed
    exact ⟨ts, yields_again rfl rfl (restart_pop hread) hyields, hts⟩
  | @token _ rest fs conds missed trace t hread _ ih =>
    obtain ⟨rfl, rfl⟩ := List.cons_eq_cons.mp hplace
    obtain ⟨ts, hyields, hts⟩ := ih (fun e he => hincl e (.tail _ he)) rfl hmissed
    have htoken : ∀ s : Lexer, readToken s (.token t) = .ok (t, s) := fun _ => rfl
    cases missed with
    | true => exact ⟨ts, yields_hidden rfl hread (htoken _) rfl rfl hyields, hts⟩
    | false =>
      refine ⟨t :: ts, yields_shown rfl hread (htoken _) rfl hyields, ?_⟩
      rw [List.filter_cons_of_pos (readItem_real hread), hts]
      rfl
  | @ifdef _ rest fs conds missed trace negated defined hread _ ih =>
    obtain ⟨rfl, rfl⟩ := List.cons_eq_cons.mp hplace
    obtain ⟨ts, hyields, hts⟩ := ih (fun e he => hincl e (.tail _ he)) rfl (live_ifdef hmissed)
    have htoken : readToken ⟨rest, fs, false, conds.length, missed⟩ (.ifdef negated defined) =
        .ok (.none, ⟨rest, fs, false, conds.length + 1, missed || negated == defined⟩) := by
      cases negated <;> cases defined <;> cases missed <;> rfl
    cases hskip : (missed || negated == defined) with
    | true =>
      rw [hskip] at hyields htoken
      refine ⟨ts, yields_hidden rfl hread htoken rfl rfl hyields, hts.trans ?_⟩
      simp [shownTokens, Item.tok]
    | false =>
      rw [hskip] at hyields htoken
      refine ⟨.none :: ts, yields_shown rfl hread htoken rfl hyields, ?_⟩
      rw [List.filter_cons_of_neg (by simp [Tok.real]), hts]
      simp [shownTokens, Item.tok]
  | @endif _ rest fs c conds missed trace hread _ ih =>
    obtain ⟨rfl, rfl⟩ := List.cons_eq_cons.mp hplace
    obtain ⟨ts, hyields, hts⟩ := ih (fun e he => hincl e (.tail _ he)) rfl (live_endif hmissed)
    have htoken : readToken ⟨rest, fs, false, (c :: conds).length, missed⟩ .endif =
        .ok (.none, ⟨rest, fs, false, conds.length, missed && !conds.isEmpty⟩) := by
      cases conds with
      | nil => simp [readToken]
      | cons d conds => simp [readToken]
    cases hskip : (missed && !conds.isEmpty) with
    | true =>
      rw [hskip] at hyields htoken
      refine ⟨ts, yields_hidden rfl hread htoken rfl rfl hyields, hts.trans ?_⟩
      simp [shownTokens, Item.tok]
    | false =>
      rw [hskip] at hyields htoken
      refine ⟨.none :: ts, yields_shown rfl hread htoken rfl hyields, ?_⟩
      rw [List.filter_cons_of_neg (by simp [Tok.real]), hts]
      simp [shownTokens, Item.tok]
  | skipped _ hlive _ _ =>
    -- no `include` is skipped
    have hnot := hincl _ (.head _) rfl
    simp [hmissed hnot] at hlive
  | @incl _ rest content rest' fs conds missed trace hread _ hopen _ ih =>
    obtain ⟨rfl, rfl⟩ := List.cons_eq_cons.mp hplace
    have hnot : missed = false := hincl _ (.head _) rfl
    obtain ⟨ts, hyields, hts⟩ := ih (fun e he => hincl e (.tail _ he)) rfl hmissed
    subst hnot
    have htoken : readToken ⟨rest, fs, false, conds.length, false⟩ .incl =
        .ok (.none, ⟨rest, fs, true, conds.length, false⟩) := rfl
    refine ⟨.none :: ts, yields_shown rfl hread htoken rfl ?_, ?_⟩
    · -- the next call opens the file
      have hcall : ∀ n, yylex env n ⟨rest, fs, true, conds.length, false⟩ =
          yylex env n ⟨content, rest' :: fs, false, conds.length, false⟩ := by
        intro n
        rw [yylex, if_pos rfl, yylex_restart rfl]
        simp only [Lexer.place, hopen]
      cases hyields with
      | finish hn => exact .finish ((hcall _).trans hn)
      | next hn hrest => exact .next ((hcall _).trans hn) hrest
    · rw [List.filter_cons_of_neg (by simp [Tok.real]), hts]
      simp [shownTokens, Item.tok]

/-! ## Tokens that are lost -/

section Lost

variable {α β : Type} {f g : α → Option β}

theorem length_filterMap_le {l : List α} (h : ∀ x ∈ l, f x = none ∨ f x = g x) :
    (l.filterMap f).length ≤ (l.filterMap g).length := by
  induction l with
  | nil => exact Nat.le_refl _
  | cons x l ih =>
    have hrest := ih fun y hy => h y (.tail _ hy)
    rcases h x (.head _) with hx | hx
    · rw [List.filterMap_cons_none hx, List.filterMap_cons]
      split
      · exact hrest
      · exact Nat.le_succ_of_le hrest
    · rw [List.filterMap_cons, List.filterMap_cons, hx]
      split
      · exact hrest
      · exact Nat.succ_le_succ hrest

/-- A function that gives no more than another gives the same list just when it gives the same
everywhere. -/
theorem filterMap_eq_iff {l : List α} (h : ∀ x ∈ l, f x = none ∨ f x = g x) :
    l.filterMap f = l.filterMap g ↔ ∀ x ∈ l, f x = g x := by
  refine ⟨fun heq => ?_, List.filterMap_congr⟩
  induction l with
  | nil => exact nofun
  | cons x l ih =>
    have hrest : ∀ y ∈ l, f y = none ∨ f y = g y := fun y hy => h y (.tail _ hy)
    have hsame : f x = g x := by
      rcases h x (.head _) with hx | hx
      · -- a value that only `g` gives makes its list longer
        cases hg : g x with
        | none => exact hx
        | some y =>
          have hlength := congrArg List.length heq
          have hle := length_filterMap_le hrest
          rw [List.filterMap_cons_none hx, List.filterMap_cons_some hg, List.length_cons] at hlength
          omega
      · exact hx
    rw [List.filterMap_cons, List.filterMap_cons, hsame] at heq
    have heq' : l.filterMap f = l.filterMap g := by
      cases hg : g x with
      | none => simpa [hg] using heq
      | some y => simpa [hg] using heq
    intro y hy
    rcases List.mem_cons.mp hy with rfl | hy
    · exact hsame
    · exact ih hrest heq' y hy

end Lost

/-- Every conditional around an item holds when none has failed since the nesting was last zero. -/
theorem live_of_scans {env : Env} {place : Place} {conds : List Bool} {missed : Bool}
    {trace : List Seen} (h : Scans env place conds missed trace)
    (hmissed : missed = false → live conds = true) :
    ∀ e ∈ trace, e.missed = false → e.live = true := by
  induction h with
  | finish hread => exact nofun
  | pop _ _ ih => exact ih hmissed
  | token _ _ ih =>
    rintro e (_ | ⟨_, he⟩)
    · exact hmissed
    · exact ih hmissed e he
  | ifdef _ _ ih =>
    rintro e (_ | ⟨_, he⟩)
    · exact hmissed
    · exact ih (live_ifdef hmissed) e he
  | endif _ _ ih =>
    rintro e (_ | ⟨_, he⟩)
    · exact hmissed
    · exact ih (live_endif hmissed) e he
  | skipped _ hlive _ ih =>
    rintro e (_ | ⟨_, he⟩)
    · intro hnot
      simp [hmissed hnot] at hlive
    · exact ih hmissed e he
  | incl _ _ _ _ ih =>
    rintro e (_ | ⟨_, he⟩)
    · exact fun _ => rfl
    · exact ih hmissed e he

/-- For a text that can be read, in which each `include` stands where no conditional has failed since
the nesting was last zero: `yylex` returns the tokens whose every enclosing conditional holds just
when each of these tokens stands at such a place too. -/
theorem yields_live_iff {env : Env} {text : List Char} {trace : List Seen}
    (h : Scans env [text] [] false trace)
    (hincl : ∀ e ∈ trace, e.item = .incl → e.missed = false) :
    (∃ ts, Yields env { file := text } ts ∧ ts.filter Tok.real = liveTokens trace) ↔
      ∀ e ∈ trace, e.item.tok.isSome = true → e.live = true → e.missed = false := by
  obtain ⟨ts, hyields, hts⟩ := yields_of_scans h hincl rfl fun _ => rfl
  have hlive := live_of_scans h fun _ => rfl
  -- the lexer returns no token but live ones
  have hsub : ∀ e ∈ trace, (if e.missed then none else e.item.tok) = none ∨
      (if e.missed then none else e.item.tok) = if e.live then e.item.tok else none := by
    intro e he
    cases hm : e.missed with
    | true => exact .inl rfl
    | false => simp [hlive e he hm]
  have hiff := filterMap_eq_iff hsub
  constructor
  · rintro ⟨ts', hyields', hts'⟩ e he hsome hlive'
    obtain rfl := hyields.unique hyields'
    have heq := hiff.mp (hts.symm.trans hts') e he
    by_contra hm
    rw [if_pos (by simpa using hm), if_pos hlive'] at heq
    simp [← heq] at hsome
  · intro hall
    refine ⟨ts, hyields, hts.trans (hiff.mpr fun e he => ?_)⟩
    cases htok : e.item.tok with
    | none => simp
    | some t =>
      cases hlive' : e.live with
      | true => simp [hall e he (by simp [htok]) hlive']
      | false =>
        have hm : e.missed = true := by
          by_contra hm
          simp [hlive e he (by simpa using hm)] at hlive'
        simp [hm]

/-- Only `$a` is defined, and no file can be opened. -/
def onlyA : Env where
  macros _ name := if name = ['$', 'a'] then some (.string []) else none
  replacepath := id
  fopen _ := .error []
  dirname := []

/-- A conditional that fails, inside one that holds and at its end. -/
def nested : List Char := "ifdef $a all ifdef $b and endif endif or".toList

theorem yields_live_iff_nested : ∃ trace, Scans onlyA [nested] [] false trace ∧
    ((∃ ts, Yields onlyA { file := nested } ts ∧ ts.filter Tok.real = liveTokens trace) ↔
      ∀ e ∈ trace, e.item.tok.isSome = true → e.live = true → e.missed = false) := by
  have hscans : Scans onlyA [nested] [] false _ := .ifdef rfl
    (.token rfl (.ifdef rfl (.token rfl (.endif rfl (.endif rfl (.token rfl (.finish rfl)))))))
  exact ⟨_, hscans, yields_live_iff hscans (by decide)⟩

/-- A token behind a conditional that fails, inside one that holds. -/
def behindNested : List Char := "ifdef $a ifdef $b endif all endif".toList

/-- An `include` inside a conditional that fails. -/
def skippedInclude : List Char := "ifdef $b include 'f' endif all".toList

/-- `all` is lost in the one text, and the other one is a syntax error behind its `endif`. -/
theorem lost_behind :
    (∃ trace, Scans onlyA [behindNested] [] false trace ∧
      ¬ ∃ ts, Yields onlyA { file := behindNested } ts ∧ ts.filter Tok.real = liveTokens trace) ∧
    ∃ trace, Scans onlyA [skippedInclude] [] false trace ∧
      ¬ ∃ ts, Yields onlyA { file := skippedInclude } ts := by
  constructor
  · have hscans : Scans onlyA [behindNested] [] false _ :=
      .ifdef rfl (.ifdef rfl (.endif rfl (.token rfl (.endif rfl (.finish rfl)))))
    refine ⟨_, hscans, ?_⟩
    rintro ⟨ts, hyields, hts⟩
    obtain ⟨ts', hyields', hts'⟩ := yields_of_scans hscans (by decide) rfl fun _ => rfl
    obtain rfl := hyields.unique hyields'
    have heq := hts.symm.trans hts'
    revert heq
    decide
  · have hscans : Scans onlyA [skippedInclude] [] false _ :=
      .ifdef rfl (.skipped rfl rfl (.token rfl (.endif rfl (.token rfl (.finish rfl)))))
    refine ⟨_, hscans, ?_⟩
    rintro ⟨ts, hyields⟩
    -- the first call returns the placeholder of `endif`, the second one wants a path
    have hfirst : yylex onlyA 4 { file := skippedInclude } =
        some (.ok (some .none, ⟨" all".toList, [], true, 0, false⟩)) := rfl
    have hsecond : yylex onlyA 0 ⟨" all".toList, [], true, 0, false⟩ = some (.error .syntaxError) := rfl
    cases hyields with
    | finish hcall => cases yylex_unique hfirst hcall
    | next hcall hrest =>
      cases yylex_unique hfirst hcall
      cases hrest with
      | finish hcall => cases yylex_unique hsecond hcall
      | next hcall _ => cases yylex_unique hsecond hcall

end Fdm.Lex
