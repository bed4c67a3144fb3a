import Fdm.Lex.Defs
import Fdm.Lib.Scanf
import Fdm.Locking.Defs
import Fdm.Rules.Defs

/-!
# The configuration

`parse.y`: what the grammar does about the commands of a configuration file, once the parser has
put their values together. A command checks its values and adds to the settings, the macros, the
accounts, the actions, the caches or the rules.

* The text of a macro's token begins with `$` or `%`; `Xstrv` and `Numv` have only the name.
* A rule is in memory: `RuleCell` is `struct rule`, and its nested rules are addresses.
* The texts that a command inserts values into (`replacestr`, `replacepath`) are left to an `Env`.
-/

namespace Fdm.Conf

open Fdm.Lex (Macro Macros maxNameSize)
open Lib.Scanf (decimal strtonumBetween takeSign isSpace)
open Locking (LockTypes)
open Rules (Actitem Action Expritem Replstr Rule)

/-! ## Errors -/

/-- What `yyerror` is called with. -/
inductive ConfError
  | macroNameTooLong (name : List Char)
  | undefinedMacro (name : List Char)
  | stringMacroExpected (name : List Char)
  | numberMacroExpected (name : List Char)
  | invalidMacro (name : List Char)
  | badNumber (s : List Char)
  | sizeTooBig
  | timeTooLong
  | nameTooLong (what name : List Char)
  | invalidName (what : List Char)
  | duplicate (what name : List Char)
  | duplicateCachePath
  | zeroMaximumSize
  | maximumSizeTooLarge (n : ℤ)
  | fcntlAndFlock
  | zeroTimeout
  | timeoutTooLong (n : ℤ)
  | zeroQueueHigh
  | queueHighTooBig (n : ℤ)
  | queueHighNotLarger
  | queueLowTooBig (n : ℤ)
  | queueHighNotSpecified
  | queueLowNotSmaller
  | parallelTooBig (n : ℤ)
  | parallelZero
  | purgeAfterZero
  | purgeAfterTooLarge (n : ℤ)
  | invalidUmask (s : List Char)
  | missingOpen
  | missingClose
deriving DecidableEq, Repr

/-- `"%lld"`. -/
def lld (n : ℤ) : List Char := (toString n).toList

/-- `LLONG_MAX`. -/
def llongMax : ℤ := 2 ^ 63 - 1

/-- What `strtonum(s, 0, LLONG_MAX, &errstr)` has against `s`. -/
def errstr (s : List Char) : List Char :=
  let (neg, ds) := takeSign (s.dropWhile isSpace)
  if ds.isEmpty || !ds.all Char.isDigit then "invalid".toList
  else if neg then "too small".toList else "too large".toList

def ConfError.text : ConfError → List Char
  | macroNameTooLong name => "macro name too long: ".toList ++ name
  | undefinedMacro name => "undefined macro: ".toList ++ name
  | stringMacroExpected name => "string macro expected: ".toList ++ name
  | numberMacroExpected name => "number macro expected: ".toList ++ name
  | invalidMacro name => "invalid macro: ".toList ++ name
  | badNumber s => "number is ".toList ++ errstr s ++ ": ".toList ++ s
  | sizeTooBig => "size is too big".toList
  | timeTooLong => "time is too long".toList
  | nameTooLong what name => what ++ " name too long: ".toList ++ name
  | invalidName what => "invalid ".toList ++ what ++ " name".toList
  | duplicate what name => "duplicate ".toList ++ what ++ ": ".toList ++ name
  | duplicateCachePath => "duplicate cache path".toList
  | zeroMaximumSize => "zero maximum size".toList
  | maximumSizeTooLarge n => "maximum size too large: ".toList ++ lld n
  | fcntlAndFlock => "fcntl and flock locking cannot be used together".toList
  | zeroTimeout => "zero timeout".toList
  | timeoutTooLong n => "timeout too long: ".toList ++ lld n
  | zeroQueueHigh => "zero queue-high".toList
  | queueHighTooBig n => "queue-high too big: ".toList ++ lld n
  | queueHighNotLarger => "queue-high must be larger than queue-low".toList
  | queueLowTooBig n => "queue-low too big: ".toList ++ lld n
  | queueHighNotSpecified => "queue-high not specified".toList
  | queueLowNotSmaller => "queue-low must be smaller than queue-high".toList
  | parallelTooBig n => "parallel-accounts too big: ".toList ++ lld n
  | parallelZero => "parallel-accounts cannot be zero".toList
  | purgeAfterZero => "invalid purge-after value: 0".toList
  | purgeAfterTooLarge n => "purge-after value too large: ".toList ++ lld n
  | invalidUmask s => "invalid umask: ".toList ++ s
  | missingOpen => "missing \x7b".toList
  | missingClose => "missing \x7d".toList

/-- `yyerror` ends the program. -/
abbrev Parsed (α : Type) := Except ConfError α

/-- A check that `yyerror` follows when it fails. -/
def check (p : Prop) [Decidable p] (e : ConfError) : Parsed Unit := if p then .error e else .ok ()

/-! ## Macros -/

/-- `parse_macros`. `last` is the place behind `parse_last`, and zero for NULL. -/
structure MacroTable where
  macros : List (List Char × Macro) := []
  last : ℕ := 0
deriving DecidableEq, Repr

namespace MacroTable

/-- `find_macro`. -/
def find (t : MacroTable) : Macros := fun name => t.macros.lookup name

/-- A new macro: `strlcpy` leaves room for the NUL. -/
def entry (name : List Char) (value : Macro) : List Char × Macro :=
  (name.take (maxNameSize - 1), value)

/-- `parse_conf` about a macro from the command line. -/
def argument (t : MacroTable) (m : List Char × Macro) : MacroTable where
  macros := t.macros ++ [m]
  last := t.macros.length + 1

/-- `defmacro`. -/
def define (t : MacroTable) (name : List Char) (value : Macro) : Parsed MacroTable := do
  check (maxNameSize < name.length) (.macroNameTooLong name)
  return { t with macros := t.macros.insertIdx t.last (entry name value) }

end MacroTable

/-- `extract_macro`. -/
def extractMacro (s : List Char) : Parsed (List Char × Macro) := do
  let name := s.takeWhile (· ≠ '=')
  let value := s.drop (name.length + 1)
  check (maxNameSize < name.length) (.macroNameTooLong name)
  match name with
  | '$' :: _ => return MacroTable.entry name (.string value)
  | '%' :: _ =>
    if name.length = s.length then return MacroTable.entry name (.number 0)
    match strtonumBetween 0 llongMax value with
    | some n => return MacroTable.entry name (.number n)
    | none => .error (.badNumber value)
  | _ => .error (.invalidMacro name)

/-! ## Values -/

/-- `xstrv`, when it is no command. -/
inductive Xstrv
  | string (s : List Char)
  | strMacro (name : List Char)
deriving DecidableEq, Repr

/-- `strv`: one string after another. -/
structure Strv where
  first : Xstrv
  rest : List Xstrv := []
deriving DecidableEq, Repr

/-- `numv`, when it is no command. -/
inductive Numv
  | number (n : ℕ)
  | numMacro (name : List Char)
deriving DecidableEq, Repr

def Xstrv.eval (find : Macros) : Xstrv → Parsed (List Char)
  | string s => .ok s
  | strMacro name => do
    let name := '$' :: name
    check (maxNameSize < name.length) (.macroNameTooLong name)
    match find name with
    | none => .error (.undefinedMacro name)
    | some (.number _) => .error (.stringMacroExpected name)
    | some (.string s) => .ok s

def Strv.eval (find : Macros) (s : Strv) : Parsed (List Char) := do
  let texts ← (s.first :: s.rest).mapM (Xstrv.eval find)
  return texts.flatten

def Numv.eval (find : Macros) : Numv → Parsed ℤ
  | number n => .ok n
  | numMacro name => do
    let name := '%' :: name
    check (maxNameSize < name.length) (.macroNameTooLong name)
    match find name with
    | none => .error (.undefinedMacro name)
    | some (.string _) => .error (.numberMacroExpected name)
    | some (.number n) => .ok n

/-- A number with a unit behind it, which there need not be. -/
def scaled (unit : Option ℤ) (tooBig : ConfError) (n : ℤ) : Parsed ℤ :=
  match unit with
  | none => .ok n
  | some k => do
    check (llongMax / k < n) tooBig
    return n * k

inductive SizeUnit
  | bytes
  | kilobytes
  | megabytes
  | gigabytes
deriving DecidableEq, Repr

def SizeUnit.factor : SizeUnit → Option ℤ
  | bytes => none
  | kilobytes => some 1024
  | megabytes => some (1024 * 1024)
  | gigabytes => some (1024 * 1024 * 1024)

inductive TimeUnit
  | seconds
  | minutes
  | hours
  | days
  | weeks
  | months
  | years
deriving DecidableEq, Repr

def TimeUnit.factor : TimeUnit → Option ℤ
  | seconds => none
  | minutes => some 60
  | hours => some 3600
  | days => some 86400
  | weeks => some 604800
  | months => some 2419200
  | years => some 29030400

/-- `size`; without a unit they are bytes. -/
def size (find : Macros) (n : Numv) (unit : SizeUnit) : Parsed ℤ := do
  scaled unit.factor .sizeTooBig (← n.eval find)

/-- `time`; without a unit they are seconds. -/
def time (find : Macros) (n : Numv) (unit : TimeUnit) : Parsed ℤ := do
  scaled unit.factor .timeTooLong (← n.eval find)

/-! ## Settings -/

/-- What there is to be set. -/
inductive Set
  | maximumSize (n : Numv) (unit : SizeUnit)
  | lockTypes (locks : LockTypes)
  | deleteTooBig
  | timeout (n : Numv) (unit : TimeUnit)
  | queueHigh (n : Numv)
  | queueLow (n : Numv)
  | parallelAccounts (n : Numv)
  | unmatchedMail (decision : Decision)
  | purgeAfter (n : Option Numv)
  | fileUmask (n : Numv)
deriving DecidableEq, Repr

/-- The settings in `conf`, with the defaults of `main`. -/
structure Settings where
  maxSize : ℤ := 32 * 1024 * 1024
  lockTypes : LockTypes := { fcntl := false, flock := true, dotlock := false }
  delBig : Bool := false
  timeout : ℤ := 900 * 1000
  queueHigh : ℤ := -1
  queueLow : ℤ := -1
  maxAccts : ℤ := -1
  implAct : Option Decision := none
  purgeAfter : ℤ := 0
  fileUmask : ℕ := 0o77
deriving DecidableEq, Repr

/-- `MAXMAILSIZE`. -/
def maxMailSize : ℤ := 1 * 1024 * 1024 * 1024

/-- `MAXQUEUEVALUE`. -/
def maxQueueValue : ℤ := 50

/-- `INT_MAX`. -/
def intMax : ℤ := 2 ^ 31 - 1

/-- `UINT_MAX`. -/
def uintMax : ℤ := 2 ^ 32 - 1

/-- `"%03lld"`, as far as it fits into the eight bytes of `s`. -/
def umaskText (n : ℤ) : List Char :=
  let digits := decimal n.natAbs
  let sign := if n < 0 then ['-'] else []
  (sign ++ List.replicate (3 - sign.length - digits.length) '0' ++ digits).take 7

/-- A digit of an umask; what is tested for the second one is whether it is negative. -/
def isOctal (ch : Char) : Bool := '0' ≤ ch && ch ≤ '7'

/-- `sscanf("%o")` of three octal digits. -/
def octal (s : List Char) : ℕ := s.foldl (fun n ch => 8 * n + (ch.toNat - 48)) 0

/-- An umask that is written as a decimal number. -/
def umask (n : ℤ) : Parsed ℕ :=
  let s := umaskText n
  match s with
  | [c0, c1, c2] =>
    if !isOctal c0 || '7' < c1 || !isOctal c2 then .error (.invalidUmask s) else .ok (octal s)
  | _ => .error (.invalidUmask s)

/-- `set`. -/
def Settings.set (find : Macros) (conf : Settings) : Set → Parsed Settings
  | .maximumSize n unit => do
    let n ← size find n unit
    check (n = 0) .zeroMaximumSize
    check (maxMailSize < n) (.maximumSizeTooLarge n)
    return { conf with maxSize := n }
  | .lockTypes locks => do
    check (locks.fcntl ∧ locks.flock) .fcntlAndFlock
    return { conf with lockTypes := locks }
  | .deleteTooBig => return { conf with delBig := true }
  | .timeout n unit => do
    let n ← time find n unit
    check (n = 0) .zeroTimeout
    check (intMax / 1000 < n) (.timeoutTooLong n)
    return { conf with timeout := n * 1000 }
  | .queueHigh n => do
    let n ← n.eval find
    check (n = 0) .zeroQueueHigh
    check (maxQueueValue < n) (.queueHighTooBig n)
    check (conf.queueLow ≠ -1 ∧ n ≤ conf.queueLow) .queueHighNotLarger
    return { conf with queueHigh := n }
  | .queueLow n => do
    let n ← n.eval find
    check (maxQueueValue < n) (.queueLowTooBig n)
    check (conf.queueHigh = -1) .queueHighNotSpecified
    check (conf.queueHigh ≤ n) .queueLowNotSmaller
    return { conf with queueLow := n }
  | .parallelAccounts n => do
    let n ← n.eval find
    check (intMax < n) (.parallelTooBig n)
    check (n = 0) .parallelZero
    return { conf with maxAccts := n }
  | .unmatchedMail decision => return { conf with implAct := some decision }
  | .purgeAfter none => return { conf with purgeAfter := 0 }
  | .purgeAfter (some n) => do
    let n ← n.eval find
    check (n = 0) .purgeAfterZero
    check (uintMax < n) (.purgeAfterTooLarge n)
    return { conf with purgeAfter := n }
  | .fileUmask n => do
    let n ← n.eval find
    return { conf with fileUmask := ← umask n }

/-- `DEFMAILQUEUE`. -/
def defMailQueue : ℤ := 2

/-- `main` about the queue limits that are not set. -/
def Settings.sortLimits (conf : Settings) : Settings :=
  let conf := if conf.queueHigh = -1 then { conf with queueHigh := defMailQueue } else conf
  if conf.queueLow = -1 then
    let queueLow := conf.queueHigh * 3 / 4
    { conf with queueLow := if conf.queueHigh ≤ queueLow then conf.queueHigh - 1 else queueLow }
  else conf

/-! ## Rules -/

/-- `perform`, where it is no `{`: an action, a list of them, or their names. -/
inductive Perform (δ : Type)
  | action (users : Option (List Replstr)) (item : Actitem δ) (cont : Bool)
  | actionList (users : Option (List Replstr)) (list : List (Actitem δ)) (cont : Bool)
  | actions (users : Option (List Replstr)) (actions : List Replstr) (cont : Bool)
deriving DecidableEq, Repr

/-- `struct rule`. -/
structure RuleCell (κ δ : Type) where
  idx : ℕ
  first : Expritem κ
  rest : List (Expritem κ)
  users : Option (List Replstr) := none
  stop : Bool := false
  lambda : Option (Action δ) := none
  actions : List Replstr := []
  rules : List ℕ := []
deriving DecidableEq, Repr

/-- The rules in memory, where `roots` is `conf.rules`, and what the parser keeps about them. -/
@[ext]
structure RuleMemory (κ δ : Type) where
  cells : List (RuleCell κ δ) := []
  roots : List ℕ := []
  ruleidx : ℕ := 0
  rulestack : List (Option ℕ) := []
  rule : Option ℕ := none
deriving DecidableEq, Repr

variable {φ κ δ : Type}

/-- `actlist` numbers its items. -/
def setIdx (idx : ℕ) : Actitem δ → Actitem δ
  | .deliver _ type data => .deliver idx type data
  | .chain actions => .chain actions

/-- The name of an action that only one rule has. -/
def lambdaName (idx : ℕ) : List Char := "<rule ".toList ++ decimal idx ++ ['>']

def lambda (idx : ℕ) (list : List (Actitem δ)) : Action δ where
  name := lambdaName idx
  users := none
  list := list.mapIdx setIdx

/-- The cell of a rule without nested rules. -/
def ruleCell (idx : ℕ) (first : Expritem κ) (rest : List (Expritem κ)) : Perform δ → RuleCell κ δ
  | .action users item cont =>
    { idx, first, rest, users, stop := !cont, lambda := some (lambda idx [item]) }
  | .actionList users list cont =>
    { idx, first, rest, users, stop := !cont, lambda := some (lambda idx list) }
  | .actions users actions cont => { idx, first, rest, users, stop := !cont, actions }

namespace RuleMemory

/-- A new rule, at the end of the rules of `parse_rule`. -/
def add (m : RuleMemory κ δ) (cell : RuleCell κ δ) : RuleMemory κ δ :=
  let cells := m.cells ++ [cell]
  let m := { m with ruleidx := m.ruleidx + 1 }
  match m.rule with
  | none => { m with cells := cells, roots := m.roots ++ [m.cells.length] }
  | some a =>
    { m with
      cells := cells.modify a fun cell => { cell with rules := cell.rules ++ [m.cells.length] } }

/-- `rule`. -/
def perform (m : RuleMemory κ δ) (first : Expritem κ) (rest : List (Expritem κ))
    (perform : Perform δ) : RuleMemory κ δ :=
  m.add (ruleCell m.ruleidx first rest perform)

/-- `rule`, with a `{`. -/
def openRule (m : RuleMemory κ δ) (first : Expritem κ) (rest : List (Expritem κ)) :
    RuleMemory κ δ :=
  { m.add { idx := m.ruleidx, first, rest } with
    rulestack := m.rulestack ++ [m.rule]
    rule := some m.cells.length }

/-- `close`. -/
def close (m : RuleMemory κ δ) : Parsed (RuleMemory κ δ) := do
  check (m.rule = none) .missingOpen
  return { m with rule := m.rulestack.getLast?.join, rulestack := m.rulestack.dropLast }

/-- The rule at an address, with the rules below it; the first argument bounds their depth. -/
def read (cells : List (RuleCell κ δ)) : ℕ → ℕ → Option (Rule κ δ)
  | 0, _ => none
  | fuel + 1, a => do
    let cell ← cells[a]?
    let rules ← cell.rules.mapM (read cells fuel)
    return .mk cell.idx cell.first cell.rest cell.users (!cell.stop) cell.lambda cell.actions rules

/-- The rules as `mail-state.c` goes through them. -/
def rules (m : RuleMemory κ δ) : Option (List (Rule κ δ)) :=
  m.roots.mapM (read m.cells m.cells.length)

end RuleMemory

/-! ## Commands -/

/-- `struct account`; `φ` is what is fetched. -/
structure Account (φ : Type) where
  name : List Char
  disabled : Bool
  users : Option (List Replstr)
  keep : Bool
  fetch : φ
deriving DecidableEq, Repr

/-- `struct cache`. -/
structure Cache where
  path : List Char
  expire : ℤ
deriving DecidableEq, Repr

/-- `cmds`. -/
inductive Command (φ κ δ : Type)
  | account (name : Strv) (disabled : Bool) (users : Option (List Replstr)) (fetch : φ)
      (keep : Bool)
  | defaction (name : Strv) (users : Option (List Replstr)) (list : List (Actitem δ))
  | strMacro (name : List Char) (value : Strv)
  | numMacro (name : List Char) (value : Numv)
  | rule (first : Expritem κ) (rest : List (Expritem κ)) (perform : Perform δ)
  | openRule (first : Expritem κ) (rest : List (Expritem κ))
  | close
  | set (set : Set)
  | cache (path : Strv) (expire : Option (Numv × TimeUnit))
  | none
deriving DecidableEq, Repr

/-- `conf` and the variables of the parser. -/
structure Parser (φ κ δ : Type) where
  macros : MacroTable := {}
  settings : Settings := {}
  accounts : List (Account φ) := []
  actions : List (Action δ) := []
  caches : List Cache := []
  rules : RuleMemory κ δ := {}
deriving DecidableEq, Repr

/-- What the commands do with their strings. -/
structure Env where
  replacestr : List Char → List Char
  replacepath : List Char → List Char

/-- The checks of a name for an account or an action. -/
def checkName (what name : List Char) (names : List (List Char)) : Parsed Unit := do
  check (maxNameSize ≤ name.length) (.nameTooLong what name)
  check (name = []) (.invalidName what)
  check (name ∈ names) (.duplicate what name)

/-- The actions of `expire` and `cache` about a time. -/
def expire (find : Macros) : Option (Numv × TimeUnit) → Parsed ℤ
  | none => .ok (-1)
  | some (n, unit) => time find n unit

/-- One command. -/
def Parser.step (env : Env) (p : Parser φ κ δ) : Command φ κ δ → Parsed (Parser φ κ δ)
  | .account name disabled users fetch keep => do
    let name := env.replacestr (← name.eval p.macros.find)
    checkName "account".toList name (p.accounts.map Account.name)
    return { p with accounts := p.accounts ++ [{ name, disabled, users, keep, fetch }] }
  | .defaction name users list => do
    let name := env.replacestr (← name.eval p.macros.find)
    checkName "action".toList name (p.actions.map Action.name)
    return { p with actions := p.actions ++ [{ name, users, list := list.mapIdx setIdx }] }
  | .strMacro name value => do
    let value ← value.eval p.macros.find
    return { p with macros := ← p.macros.define ('$' :: name) (.string value) }
  | .numMacro name value => do
    let value ← value.eval p.macros.find
    return { p with macros := ← p.macros.define ('%' :: name) (.number value) }
  | .rule first rest perform => return { p with rules := p.rules.perform first rest perform }
  | .openRule first rest => return { p with rules := p.rules.openRule first rest }
  | .close => return { p with rules := ← p.rules.close }
  | .set set => return { p with settings := ← p.settings.set p.macros.find set }
  | .cache path time => do
    let path := env.replacepath (← path.eval p.macros.find)
    let expire ← expire p.macros.find time
    check (path ∈ p.caches.map Cache.path) .duplicateCachePath
    return { p with caches := p.caches ++ [{ path, expire }] }
  | .none => return p

/-- `parse_conf`, with the macros of the command line. -/
def parseConf (env : Env) (arguments : List (List Char)) (cmds : List (Command φ κ δ)) :
    Parsed (Parser φ κ δ) := do
  let macros ← arguments.foldlM (fun t s => return t.argument (← extractMacro s)) {}
  let p ← cmds.foldlM (Parser.step env) { macros := macros }
  check (p.rules.rulestack ≠ []) .missingClose
  return p

end Fdm.Conf
