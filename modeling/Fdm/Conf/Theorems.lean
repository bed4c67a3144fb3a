import Fdm.Conf.Nesting
import Fdm.Fetch.Loop

/-!
# What an accepted configuration is like

* `config_sound`: names are valid and different from each other, and the settings are within their
  bounds;
* `macro_kinds`: the parser never finds a macro of the other kind.
-/

namespace Fdm.Conf

open Fdm.Lex (Macro Macros maxNameSize)

variable {φ κ δ : Type}

/-! ## Results of the parser -/

section
variable {α β : Type} {x : Parsed α} {f : α → Parsed β} {a a' : α} {b : β} {e e' : ConfError}
  {p : Prop} [Decidable p] {u : Unit}

/-- Two parts of an action succeed when the first does, and the second on its result. -/
theorem bind_eq_ok : (x >>= f) = .ok b ↔ ∃ a, x = .ok a ∧ f a = .ok b := by
  cases x with
  | error e => exact ⟨nofun, fun ⟨_, h, _⟩ => nomatch h⟩
  | ok a => exact ⟨fun h => ⟨a, rfl, h⟩, fun ⟨_, h, hf⟩ => by cases h; exact hf⟩

/-- It fails where the first part does, or the second. -/
theorem bind_eq_error :
    (x >>= f) = .error e ↔ x = .error e ∨ ∃ a, x = .ok a ∧ f a = .error e := by
  cases x with
  | error e' =>
    refine ⟨fun h => .inl (congrArg Except.error (Except.error.inj h)), ?_⟩
    rintro (h | ⟨_, h, _⟩)
    · exact congrArg Except.error (Except.error.inj h)
    · cases h
  | ok a =>
    refine ⟨fun h => .inr ⟨a, rfl, h⟩, fun h => h.elim (fun h => nomatch h) ?_⟩
    rintro ⟨_, ⟨⟩, h⟩
    exact h

theorem pure_eq_ok : (pure a : Parsed α) = .ok a' ↔ a = a' :=
  ⟨fun h => Except.ok.inj h, fun h => congrArg Except.ok h⟩

/-- A check lets through what it does not refuse. -/
theorem check_eq_ok : check p e = .ok u ↔ ¬p := by
  unfold check
  split_ifs with hp
  · exact ⟨nofun, fun h => absurd hp h⟩
  · exact ⟨fun _ => hp, fun _ => rfl⟩

theorem check_eq_error : check p e = .error e' ↔ p ∧ e = e' := by
  unfold check
  split_ifs with hp
  · exact ⟨fun h => ⟨hp, Except.error.inj h⟩, fun h => congrArg Except.error h.2⟩
  · exact ⟨nofun, fun h => absurd h.1 hp⟩

/-- What each of many steps keeps. -/
theorem foldlM_keeps {I : β → Prop} {g : β → α → Parsed β} {l : List α} {b b' : β}
    (hstep : ∀ b a b', I b → g b a = .ok b' → I b') (hb : I b) (h : l.foldlM g b = .ok b') :
    I b' := by
  induction l generalizing b with
  | nil =>
    cases h
    exact hb
  | cons a l ih =>
    obtain ⟨b₁, hb₁, hrest⟩ := bind_eq_ok.mp h
    exact ih (hstep b a b₁ hb hb₁) hrest

end

/-! ## Macros -/

/-- A macro is of the kind that its name says, and numbers are not negative. -/
def Typed (m : List Char × Macro) : Prop :=
  (m.1.head? = some '$' ∧ ∃ s, m.2 = .string s) ∨
    (m.1.head? = some '%' ∧ ∃ n, m.2 = .number n ∧ 0 ≤ n)

theorem typed_string (name s : List Char) : Typed (MacroTable.entry ('$' :: name) (.string s)) :=
  .inl ⟨rfl, s, rfl⟩

theorem typed_number (name : List Char) {n : ℤ} (hn : 0 ≤ n) :
    Typed (MacroTable.entry ('%' :: name) (.number n)) :=
  .inr ⟨rfl, n, rfl, hn⟩

namespace MacroTable

/-- The macros of the table are, and `parse_last` is one of them. -/
structure Good (t : MacroTable) : Prop where
  typed : ∀ m ∈ t.macros, Typed m
  last : t.last ≤ t.macros.length

variable {t t' : MacroTable} {name : List Char} {value : Macro}

/-- What is found is in the table. -/
theorem mem_of_find (h : t.find name = some value) : (name, value) ∈ t.macros := by
  obtain ⟨l, l', heq, -⟩ := List.lookup_eq_some_iff.mp h
  rw [heq]
  exact List.mem_append_right _ List.mem_cons_self

/-- A macro whose name begins with `$` is a string. -/
theorem Good.string (ht : t.Good) (h : t.find ('$' :: name) = some value) :
    ∃ s, value = .string s := by
  rcases ht.typed _ (mem_of_find h) with ⟨-, hs⟩ | ⟨hhead, -⟩
  · exact hs
  · cases hhead

/-- A macro whose name begins with `%` is a number, and no negative one. -/
theorem Good.number (ht : t.Good) (h : t.find ('%' :: name) = some value) :
    ∃ n, value = .number n ∧ 0 ≤ n := by
  rcases ht.typed _ (mem_of_find h) with ⟨hhead, -⟩ | ⟨-, hn⟩
  · cases hhead
  · exact hn

/-- A macro of the command line keeps the table good. -/
theorem Good.argument (ht : t.Good) {m : List Char × Macro} (hm : Typed m) :
    (t.argument m).Good := by
  refine ⟨fun m' hm' => ?_, ?_⟩
  · rcases List.mem_append.mp hm' with h | h
    · exact ht.typed m' h
    · rwa [List.mem_singleton.mp h]
  · show t.macros.length + 1 ≤ (t.macros ++ [m]).length
    rw [List.length_append, List.length_singleton]

/-- So does one that is defined in the file. -/
theorem Good.define (ht : t.Good) (hm : Typed (entry name value))
    (h : t.define name value = .ok t') : t'.Good := by
  simp only [MacroTable.define, bind_eq_ok, check_eq_ok, pure_eq_ok] at h
  obtain ⟨-, -, rfl⟩ := h
  refine ⟨fun m hmem => ?_, ?_⟩
  · rcases List.eq_or_mem_of_mem_insertIdx hmem with rfl | hmem
    · exact hm
    · exact ht.typed m hmem
  · show t.last ≤ (t.macros.insertIdx t.last _).length
    rw [List.length_insertIdx_of_le_length ht.last]
    exact Nat.le_succ_of_le ht.last

end MacroTable

/-- A number that is read is within its bounds. -/
theorem strtonumBetween_bounds {lo hi n : ℤ} {s : List Char}
    (h : Lib.Scanf.strtonumBetween lo hi s = some n) : lo ≤ n ∧ n ≤ hi := by
  unfold Lib.Scanf.strtonumBetween at h
  dsimp only at h
  split_ifs at h <;> cases h <;> omega

/-- A macro of the command line has the type that its name says. -/
theorem typed_extractMacro {s : List Char} {m : List Char × Macro}
    (h : extractMacro s = .ok m) : Typed m := by
  unfold extractMacro at h
  obtain ⟨-, -, h⟩ := bind_eq_ok.mp h
  split at h
  · next name hname =>
    rw [← pure_eq_ok.mp h, hname]
    exact typed_string name _
  · next name hname =>
    split_ifs at h
    · rw [← pure_eq_ok.mp h, hname]
      exact typed_number name (Int.le_refl 0)
    · split at h
      · next n hn =>
        rw [← pure_eq_ok.mp h, hname]
        exact typed_number name (strtonumBetween_bounds hn).1
      · cases h
  · cases h

/-- One of the errors about a macro of the other kind. -/
def ConfError.expected : ConfError → Bool
  | stringMacroExpected _ | numberMacroExpected _ => true
  | _ => false

/-- The parser may fail, but not because of the kind of a macro. -/
def Fitting {α : Type} (x : Parsed α) : Prop := ∀ e, x = .error e → e.expected = false

namespace Fitting

variable {α β : Type}

theorem ok (a : α) : Fitting (.ok a) := nofun

/-- An error that is not about the kind of a macro. -/
theorem error {e : ConfError} (h : e.expected = false) : Fitting (.error e : Parsed α) := by
  rintro _ ⟨⟩
  exact h

theorem check {p : Prop} [Decidable p] {e : ConfError} (h : e.expected = false) :
    Fitting (Conf.check p e) := by
  intro e' he'
  rwa [← (check_eq_error.mp he').2]

/-- Parts that fit make an action that fits, where the second may rely on the first. -/
theorem bind {x : Parsed α} {f : α → Parsed β} (hx : Fitting x)
    (hf : ∀ a, x = .ok a → Fitting (f a)) : Fitting (x >>= f) := by
  intro e he
  rcases bind_eq_error.mp he with h | ⟨a, ha, h⟩
  · exact hx e h
  · exact hf a ha e h

/-- Commands fit one after another, by an invariant of the state between them. -/
theorem foldlM {I : β → Prop} {g : β → α → Parsed β} {l : List α} {b : β}
    (hstep : ∀ b a b', I b → g b a = .ok b' → I b') (hfit : ∀ b a, I b → Fitting (g b a))
    (hb : I b) : Fitting (l.foldlM g b) := by
  induction l generalizing b with
  | nil => exact .ok b
  | cons a l ih => exact (hfit b a hb).bind fun b₁ hb₁ => ih (hstep b a b₁ hb hb₁)

end Fitting

section
variable {t : MacroTable}

/-- The value of a string macro is a string. -/
theorem fitting_xstrv (ht : t.Good) (x : Xstrv) : Fitting (x.eval t.find) := by
  cases x with
  | string s => exact .ok s
  | strMacro name =>
    refine .bind (.check rfl) fun _ _ => ?_
    cases hfind : t.find ('$' :: name) with
    | none => exact .error rfl
    | some value =>
      obtain ⟨s, rfl⟩ := ht.string hfind
      exact .ok s

theorem fitting_strv (ht : t.Good) (s : Strv) : Fitting (s.eval t.find) := by
  refine .bind ?_ fun _ _ => .ok _
  generalize s.first :: s.rest = xs
  induction xs with
  | nil => exact .ok []
  | cons x xs ih =>
    rw [List.mapM_cons]
    exact (fitting_xstrv ht x).bind fun _ _ => ih.bind fun _ _ => .ok _

/-- The value of a number macro is a number. -/
theorem fitting_numv (ht : t.Good) (n : Numv) : Fitting (n.eval t.find) := by
  cases n with
  | number n => exact .ok _
  | numMacro name =>
    refine .bind (.check rfl) fun _ _ => ?_
    cases hfind : t.find ('%' :: name) with
    | none => exact .error rfl
    | some value =>
      obtain ⟨n, rfl, -⟩ := ht.number hfind
      exact .ok n

theorem fitting_scaled {tooBig : ConfError} (h : tooBig.expected = false) (unit : Option ℤ)
    (n : ℤ) : Fitting (scaled unit tooBig n) := by
  cases unit with
  | none => exact .ok n
  | some k => exact .bind (.check h) fun _ _ => .ok _

theorem fitting_size (ht : t.Good) (n : Numv) (unit : SizeUnit) : Fitting (size t.find n unit) :=
  (fitting_numv ht n).bind fun _ _ => fitting_scaled rfl _ _

theorem fitting_time (ht : t.Good) (n : Numv) (unit : TimeUnit) : Fitting (time t.find n unit) :=
  (fitting_numv ht n).bind fun _ _ => fitting_scaled rfl _ _

/-- No value is negative: the lexer reads digits, and macros keep what it has read. -/
theorem numv_nonneg (ht : t.Good) {n : Numv} {v : ℤ} (h : n.eval t.find = .ok v) : 0 ≤ v := by
  cases n with
  | number n =>
    cases h
    exact Int.natCast_nonneg n
  | numMacro name =>
    obtain ⟨_, -, h⟩ := bind_eq_ok.mp h
    cases hfind : t.find ('%' :: name) with
    | none =>
      rw [hfind] at h
      cases h
    | some value =>
      obtain ⟨n, rfl, hn⟩ := ht.number hfind
      rw [hfind] at h
      cases h
      exact hn

/-- A unit does not change that. -/
theorem scaled_nonneg {unit : Option ℤ} {tooBig : ConfError} {n v : ℤ} (hn : 0 ≤ n)
    (hunit : ∀ k ∈ unit, 0 ≤ k) (h : scaled unit tooBig n = .ok v) : 0 ≤ v := by
  cases unit with
  | none =>
    cases h
    exact hn
  | some k =>
    obtain ⟨_, -, h⟩ := bind_eq_ok.mp h
    rw [← pure_eq_ok.mp h]
    exact Int.mul_nonneg hn (hunit k rfl)

theorem size_nonneg (ht : t.Good) {n : Numv} {unit : SizeUnit} {v : ℤ}
    (h : size t.find n unit = .ok v) : 0 ≤ v := by
  obtain ⟨n, hn, h⟩ := bind_eq_ok.mp h
  exact scaled_nonneg (numv_nonneg ht hn) (by cases unit <;> simp [SizeUnit.factor]) h

theorem time_nonneg (ht : t.Good) {n : Numv} {unit : TimeUnit} {v : ℤ}
    (h : time t.find n unit = .ok v) : 0 ≤ v := by
  obtain ⟨n, hn, h⟩ := bind_eq_ok.mp h
  exact scaled_nonneg (numv_nonneg ht hn) (by cases unit <;> simp [TimeUnit.factor]) h

end

/-! ## Settings -/

namespace Settings

/-- The settings are within their bounds. -/
structure Sound (conf : Settings) : Prop where
  maxSize : 0 < conf.maxSize ∧ conf.maxSize ≤ maxMailSize
  lockTypes : ¬(conf.lockTypes.fcntl ∧ conf.lockTypes.flock)
  timeout : 0 < conf.timeout ∧ conf.timeout ≤ intMax
  queues : (conf.queueHigh = -1 ∧ conf.queueLow = -1) ∨
    (0 < conf.queueHigh ∧ conf.queueHigh ≤ maxQueueValue ∧
      (conf.queueLow = -1 ∨ (0 ≤ conf.queueLow ∧ conf.queueLow < conf.queueHigh)))
  maxAccts : conf.maxAccts = -1 ∨ (0 < conf.maxAccts ∧ conf.maxAccts ≤ intMax)
  purgeAfter : 0 ≤ conf.purgeAfter ∧ conf.purgeAfter ≤ uintMax
  fileUmask : conf.fileUmask ≤ 0o777

/-- The defaults of `main` are accepted settings. -/
theorem sound_default : ({} : Settings).Sound := by
  constructor <;> decide

end Settings

/-- A digit is at most seven. -/
theorem octal_le {c : Char} (h : c ≤ '7') : c.toNat - 48 ≤ 7 := by
  have hle : c.toNat ≤ '7'.toNat := h
  have hseven : '7'.toNat = 55 := rfl
  omega

/-- An umask has three octal digits, although the test of the second one lets any through that is at
most `7`. -/
theorem umask_le {n : ℤ} {v : ℕ} (h : umask n = .ok v) : v ≤ 0o777 := by
  unfold umask at h
  dsimp only at h
  split at h
  · next c0 c1 c2 heq =>
    split_ifs at h with hbad
    simp only [Bool.or_eq_true, Bool.not_eq_true', decide_eq_true_eq, not_or, isOctal,
      Bool.and_eq_false_iff, decide_eq_false_iff_not, not_not] at hbad
    obtain ⟨⟨⟨-, h0⟩, h1⟩, -, h2⟩ := hbad
    rw [← Except.ok.inj h, heq]
    have h0 := octal_le h0
    have h1 := octal_le (Char.not_lt.mp h1)
    have h2 := octal_le h2
    simp only [octal, List.foldl_cons, List.foldl_nil]
    omega
  · cases h

namespace Settings

variable {t : MacroTable} {conf conf' : Settings} {cmd : Set} {e : ConfError}

/-- A setting that is accepted leaves sound settings. -/
theorem Sound.set (hconf : conf.Sound) (ht : t.Good) (h : conf.set t.find cmd = .ok conf') :
    conf'.Sound := by
  cases cmd with
  | maximumSize n unit =>
    simp only [Settings.set, bind_eq_ok, check_eq_ok, pure_eq_ok] at h
    obtain ⟨n, hn, -, hzero, -, hlarge, rfl⟩ := h
    have hpos := size_nonneg ht hn
    exact { hconf with maxSize := ⟨by dsimp only; omega, Int.not_lt.mp hlarge⟩ }
  | lockTypes locks =>
    simp only [Settings.set, bind_eq_ok, check_eq_ok, pure_eq_ok] at h
    obtain ⟨-, hlocks, rfl⟩ := h
    exact { hconf with lockTypes := hlocks }
  | deleteTooBig =>
    cases h
    exact { hconf with }
  | timeout n unit =>
    simp only [Settings.set, bind_eq_ok, check_eq_ok, pure_eq_ok] at h
    obtain ⟨n, hn, -, hzero, -, hlong, rfl⟩ := h
    have hpos := time_nonneg ht hn
    refine { hconf with timeout := ⟨?_, ?_⟩ }
    · dsimp only
      omega
    · dsimp only
      unfold intMax at hlong ⊢
      omega
  | queueHigh n =>
    simp only [Settings.set, bind_eq_ok, check_eq_ok, pure_eq_ok] at h
    obtain ⟨n, hn, -, hzero, -, hbig, -, hlow, rfl⟩ := h
    have hpos := numv_nonneg ht hn
    have hqueues := hconf.queues
    refine { hconf with queues := .inr ⟨?_, ?_, ?_⟩ }
    · dsimp only
      omega
    · dsimp only
      omega
    · dsimp only
      omega
  | queueLow n =>
    simp only [Settings.set, bind_eq_ok, check_eq_ok, pure_eq_ok] at h
    obtain ⟨n, hn, -, hbig, -, hhigh, -, hlow, rfl⟩ := h
    have hpos := numv_nonneg ht hn
    have hqueues := hconf.queues
    refine { hconf with queues := .inr ⟨?_, ?_, .inr ⟨hpos, ?_⟩⟩ }
    · dsimp only
      omega
    · dsimp only
      omega
    · dsimp only
      omega
  | parallelAccounts n =>
    simp only [Settings.set, bind_eq_ok, check_eq_ok, pure_eq_ok] at h
    obtain ⟨n, hn, -, hbig, -, hzero, rfl⟩ := h
    have hpos := numv_nonneg ht hn
    exact { hconf with maxAccts := .inr ⟨by dsimp only; omega, Int.not_lt.mp hbig⟩ }
  | unmatchedMail decision =>
    cases h
    exact { hconf with }
  | purgeAfter n =>
    cases n with
    | none =>
      cases h
      exact { hconf with purgeAfter := ⟨Int.le_refl 0, (by decide : (0 : ℤ) ≤ uintMax)⟩ }
    | some n =>
      simp only [Settings.set, bind_eq_ok, check_eq_ok, pure_eq_ok] at h
      obtain ⟨n, hn, -, -, -, hlarge, rfl⟩ := h
      exact { hconf with purgeAfter := ⟨numv_nonneg ht hn, Int.not_lt.mp hlarge⟩ }
  | fileUmask n =>
    simp only [Settings.set, bind_eq_ok, pure_eq_ok] at h
    obtain ⟨n, -, v, hv, rfl⟩ := h
    exact { hconf with fileUmask := umask_le hv }

theorem fitting_umask (n : ℤ) : Fitting (umask n) := by
  unfold umask
  dsimp only
  split
  · split_ifs
    · exact .error rfl
    · exact .ok _
  · exact .error rfl

/-- No setting finds a macro of the other kind. -/
theorem fitting_set (ht : t.Good) (conf : Settings) (cmd : Set) :
    Fitting (conf.set t.find cmd) := by
  cases cmd with
  | maximumSize n unit =>
    exact (fitting_size ht n unit).bind fun _ _ => (Fitting.check rfl).bind fun _ _ =>
      (Fitting.check rfl).bind fun _ _ => .ok _
  | lockTypes locks => exact (Fitting.check rfl).bind fun _ _ => .ok _
  | deleteTooBig => exact .ok _
  | timeout n unit =>
    exact (fitting_time ht n unit).bind fun _ _ => (Fitting.check rfl).bind fun _ _ =>
      (Fitting.check rfl).bind fun _ _ => .ok _
  | queueHigh n =>
    exact (fitting_numv ht n).bind fun _ _ => (Fitting.check rfl).bind fun _ _ =>
      (Fitting.check rfl).bind fun _ _ => (Fitting.check rfl).bind fun _ _ => .ok _
  | queueLow n =>
    exact (fitting_numv ht n).bind fun _ _ => (Fitting.check rfl).bind fun _ _ =>
      (Fitting.check rfl).bind fun _ _ => (Fitting.check rfl).bind fun _ _ => .ok _
  | parallelAccounts n =>
    exact (fitting_numv ht n).bind fun _ _ => (Fitting.check rfl).bind fun _ _ =>
      (Fitting.check rfl).bind fun _ _ => .ok _
  | unmatchedMail decision => exact .ok _
  | purgeAfter n =>
    cases n with
    | none => exact .ok _
    | some n =>
      exact (fitting_numv ht n).bind fun _ _ => (Fitting.check rfl).bind fun _ _ =>
        (Fitting.check rfl).bind fun _ _ => .ok _
  | fileUmask n =>
    exact (fitting_numv ht n).bind fun _ _ => (fitting_umask _).bind fun _ _ => .ok _

/-- Whatever of the queue limits is set, in the end the lower one is below the upper one. -/
theorem Sound.limits (h : conf.Sound) : 0 ≤ conf.sortLimits.queueLow ∧
    conf.sortLimits.queueLow < conf.sortLimits.queueHigh ∧
    conf.sortLimits.queueHigh ≤ maxQueueValue := by
  have hbound : maxQueueValue = 50 := rfl
  unfold sortLimits
  rcases h.queues with ⟨hhigh, hlow⟩ | ⟨hpos, hhigh, hlow⟩
  · rw [if_pos hhigh, if_pos hlow]
    show (0 : ℤ) ≤ 1 ∧ (1 : ℤ) < 2 ∧ (2 : ℤ) ≤ 50
    decide
  · have hset : conf.queueHigh ≠ -1 := by omega
    by_cases hunset : conf.queueLow = -1
    · simp only [if_neg hset, if_pos hunset]
      split_ifs <;> omega
    · simp only [if_neg hset, if_neg hunset]
      omega

end Settings

/-! ## Files -/

/-- The names of accounts or of actions are valid, and no two are the same. -/
structure Names (names : List (List Char)) : Prop where
  nodup : names.Nodup
  valid : ∀ name ∈ names, name ≠ [] ∧ name.length < maxNameSize

/-- A configuration is well formed. -/
structure Parser.Sound (p : Parser φ κ δ) : Prop where
  macros : p.macros.Good
  settings : p.settings.Sound
  accounts : Names (p.accounts.map Account.name)
  actions : Names (p.actions.map Rules.Action.name)
  caches : (p.caches.map Cache.path).Nodup ∧ ∀ cache ∈ p.caches, -1 ≤ cache.expire

section
variable {env : Env} {p p' : Parser φ κ δ} {c : Command φ κ δ} {t : MacroTable}

/-- A name that has been checked can be added. -/
theorem Names.add {names : List (List Char)} {what name : List Char} {u : Unit}
    (h : Names names) (hcheck : checkName what name names = .ok u) : Names (names ++ [name]) := by
  simp only [checkName, bind_eq_ok, check_eq_ok] at hcheck
  obtain ⟨-, hlong, -, hempty, hnew⟩ := hcheck
  refine ⟨h.nodup.append (List.nodup_singleton name) ?_, fun n hn => ?_⟩
  · rintro n hn hname
    rw [List.mem_singleton.mp hname] at hn
    exact hnew hn
  · rcases List.mem_append.mp hn with hn | hn
    · exact h.valid n hn
    · rw [List.mem_singleton.mp hn]
      exact ⟨hempty, by omega⟩

/-- A time to expire is -1 or no negative one. -/
theorem expire_le (ht : t.Good) {time : Option (Numv × TimeUnit)} {v : ℤ}
    (h : expire t.find time = .ok v) : -1 ≤ v := by
  cases time with
  | none =>
    cases h
    exact Int.le_refl (-1)
  | some time =>
    have hv := time_nonneg ht h
    omega

/-- Each command leaves a well formed configuration. -/
theorem Parser.Sound.step (h : p.Sound) (hstep : p.step env c = .ok p') : p'.Sound := by
  cases c with
  | account name disabled users fetch keep =>
    simp only [Parser.step, bind_eq_ok, pure_eq_ok] at hstep
    obtain ⟨name, -, u, hname, rfl⟩ := hstep
    refine { h with accounts := ?_ }
    show Names ((p.accounts ++ [_]).map Account.name)
    rw [List.map_append]
    exact h.accounts.add hname
  | defaction name users list =>
    simp only [Parser.step, bind_eq_ok, pure_eq_ok] at hstep
    obtain ⟨name, -, u, hname, rfl⟩ := hstep
    refine { h with actions := ?_ }
    show Names ((p.actions ++ [_]).map Rules.Action.name)
    rw [List.map_append]
    exact h.actions.add hname
  | strMacro name value =>
    simp only [Parser.step, bind_eq_ok, pure_eq_ok] at hstep
    obtain ⟨value, -, t, ht, rfl⟩ := hstep
    exact { h with macros := h.macros.define (typed_string name value) ht }
  | numMacro name value =>
    simp only [Parser.step, bind_eq_ok, pure_eq_ok] at hstep
    obtain ⟨value, hvalue, t, ht, rfl⟩ := hstep
    exact { h with macros := h.macros.define (typed_number name (numv_nonneg h.macros hvalue)) ht }
  | rule first rest perform =>
    cases hstep
    exact { h with }
  | openRule first rest =>
    cases hstep
    exact { h with }
  | close =>
    simp only [Parser.step, bind_eq_ok, pure_eq_ok] at hstep
    obtain ⟨m, -, rfl⟩ := hstep
    exact { h with }
  | set cmd =>
    simp only [Parser.step, bind_eq_ok, pure_eq_ok] at hstep
    obtain ⟨conf, hconf, rfl⟩ := hstep
    exact { h with settings := h.settings.set h.macros hconf }
  | cache path time =>
    simp only [Parser.step, bind_eq_ok, check_eq_ok, pure_eq_ok] at hstep
    obtain ⟨path, -, expire, hexpire, -, hnew, rfl⟩ := hstep
    refine { h with caches := ⟨?_, fun cache hcache => ?_⟩ }
    · show ((p.caches ++ [_]).map Cache.path).Nodup
      rw [List.map_append]
      refine h.caches.1.append (List.nodup_singleton _) ?_
      rintro n hn hpath
      rw [List.mem_singleton.mp hpath] at hn
      exact hnew hn
    · rcases List.mem_append.mp hcache with hcache | hcache
      · exact h.caches.2 cache hcache
      · rw [List.mem_singleton.mp hcache]
        exact expire_le h.macros hexpire
  | none =>
    cases hstep
    exact h

theorem fitting_checkName {what name : List Char} {names : List (List Char)} :
    Fitting (checkName what name names) :=
  (Fitting.check rfl).bind fun _ _ => (Fitting.check rfl).bind fun _ _ => .check rfl

theorem fitting_define {name : List Char} {value : Macro} : Fitting (t.define name value) :=
  (Fitting.check rfl).bind fun _ _ => .ok _

/-- No command finds a macro of the other kind. -/
theorem fitting_step (h : p.Sound) (c : Command φ κ δ) : Fitting (p.step env c) := by
  cases c with
  | account name disabled users fetch keep =>
    exact (fitting_strv h.macros name).bind fun _ _ => fitting_checkName.bind fun _ _ => .ok _
  | defaction name users list =>
    exact (fitting_strv h.macros name).bind fun _ _ => fitting_checkName.bind fun _ _ => .ok _
  | strMacro name value =>
    exact (fitting_strv h.macros value).bind fun _ _ => fitting_define.bind fun _ _ => .ok _
  | numMacro name value =>
    exact (fitting_numv h.macros value).bind fun _ _ => fitting_define.bind fun _ _ => .ok _
  | rule first rest perform => exact .ok _
  | openRule first rest => exact .ok _
  | close =>
    exact ((Fitting.check rfl).bind fun _ _ => .ok _).bind fun _ _ => .ok _
  | set cmd => exact (Settings.fitting_set h.macros p.settings cmd).bind fun _ _ => .ok _
  | cache path time =>
    refine (fitting_strv h.macros path).bind fun _ _ => Fitting.bind ?_ fun _ _ =>
      (Fitting.check rfl).bind fun _ _ => .ok _
    cases time with
    | none => exact .ok _
    | some time => exact fitting_time h.macros _ _
  | none => exact .ok _

end

/-! ## The command line -/

/-- The macros of the command line. -/
def argumentMacros (arguments : List (List Char)) : Parsed MacroTable :=
  arguments.foldlM (fun t s => return t.argument (← extractMacro s)) {}

/-- The table stays good over the macros of the command line. -/
theorem good_step {t t' : MacroTable} {s : List Char} (ht : t.Good)
    (h : (do return t.argument (← extractMacro s)) = .ok t') : t'.Good := by
  obtain ⟨m, hm, h⟩ := bind_eq_ok.mp h
  rw [← pure_eq_ok.mp h]
  exact ht.argument (typed_extractMacro hm)

theorem good_empty : ({} : MacroTable).Good := ⟨nofun, Nat.le_refl 0⟩

theorem good_arguments {arguments : List (List Char)} {t : MacroTable}
    (h : argumentMacros arguments = .ok t) : t.Good :=
  foldlM_keeps (fun _ _ _ ht h => good_step ht h) good_empty h

/-- The commands begin with a well formed configuration. -/
theorem sound_begin {t : MacroTable} (ht : t.Good) :
    ({ macros := t } : Parser φ κ δ).Sound :=
  ⟨ht, Settings.sound_default, ⟨.nil, nofun⟩, ⟨.nil, nofun⟩, .nil, nofun⟩

theorem fitting_extractMacro (s : List Char) : Fitting (extractMacro s) := by
  refine .bind (.check rfl) fun _ _ => ?_
  split
  · exact .ok _
  · split_ifs
    · exact .ok _
    · split
      · exact .ok _
      · exact .error rfl
  · exact .error rfl

theorem fitting_arguments (arguments : List (List Char)) : Fitting (argumentMacros arguments) :=
  .foldlM (fun _ _ _ ht h => good_step ht h)
    (fun _ s _ => (fitting_extractMacro s).bind fun _ _ => .ok _) good_empty

/-- The settings as the fetch loop reads them. -/
def Settings.fetchConf (conf : Settings) (keepAll : Bool) : Fetch.Conf where
  queueHigh := conf.sortLimits.queueHigh.toNat
  queueLow := conf.sortLimits.queueLow.toNat
  purgeAfter := conf.purgeAfter.toNat
  maxSize := conf.maxSize.toNat
  delBig := conf.delBig
  keepAll := keepAll

section
variable {env : Env} {arguments : List (List Char)} {cmds : List (Command φ κ δ)}
  {p : Parser φ κ δ}

/-- By induction over the commands, what is accepted is well formed. -/
theorem sound_parseConf (h : parseConf env arguments cmds = .ok p) : p.Sound := by
  obtain ⟨t, ht, h⟩ := bind_eq_ok.mp h
  have hrun := (finish_eq_iff.mp h).1
  exact foldlM_keeps (fun _ _ _ hp h => hp.step h) (sound_begin (good_arguments ht)) hrun

/-- An accepted configuration is well formed. In particular the fetch loop can hold back mails and
go on again, whatever limits are set and in which order. -/
theorem config_sound (h : parseConf env arguments cmds = .ok p) (keepAll : Bool) :
    p.Sound ∧
      (p.settings.fetchConf keepAll).queueLow < (p.settings.fetchConf keepAll).queueHigh := by
  have hsound := sound_parseConf h
  have hlimits := hsound.settings.limits
  refine ⟨hsound, ?_⟩
  show p.settings.sortLimits.queueLow.toNat < p.settings.sortLimits.queueHigh.toNat
  omega

/-- A limit from the command line, a macro that is used, a cache, an action and an account. -/
def sampleConf : Parsed (Parser Unit Unit Unit) :=
  parseConf ⟨id, id⟩ ["%high=8".toList]
    [.strMacro "box".toList ⟨.string "in".toList, [.string "box".toList]⟩,
      .set (.queueHigh (.numMacro "high".toList)), .none, .set (.queueLow (.number 3)),
      .cache ⟨.strMacro "box".toList, []⟩ (some (.number 2, .weeks)),
      .defaction ⟨.string "save".toList, []⟩ none [.chain []],
      .account ⟨.strMacro "box".toList, []⟩ false none () true]

theorem config_sound_sample :
    sampleConf.map (fun p => (p.accounts.map Account.name, p.actions.map Rules.Action.name,
        p.caches)) =
      .ok (["inbox".toList], ["save".toList], [⟨"inbox".toList, 1209600⟩]) ∧
    ∀ p, sampleConf = .ok p →
      p.Sound ∧ (p.settings.fetchConf true).queueLow < (p.settings.fetchConf true).queueHigh :=
  ⟨rfl, fun _ hp => config_sound hp true⟩

/-- The parser never finds a macro of the other kind: their names keep them apart. -/
theorem macro_kinds (env : Env) (arguments : List (List Char)) (cmds : List (Command φ κ δ))
    (name : List Char) :
    parseConf env arguments cmds ≠ .error (.stringMacroExpected name) ∧
      parseConf env arguments cmds ≠ .error (.numberMacroExpected name) := by
  have hfit : Fitting (parseConf env arguments cmds) := by
    refine (fitting_arguments arguments).bind fun t ht => ?_
    have hrun : Fitting (cmds.foldlM (Parser.step env) { macros := t }) :=
      .foldlM (fun _ _ _ hp h => hp.step h) (fun _ c hp => fitting_step hp c)
        (sound_begin (good_arguments ht))
    exact hrun.bind fun _ _ => (Fitting.check rfl).bind fun _ _ => .ok _
  exact ⟨fun h => Bool.noConfusion (hfit _ h), fun h => Bool.noConfusion (hfit _ h)⟩

end

end Fdm.Conf
