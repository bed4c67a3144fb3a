import Mathlib.Algebra.Group.Nat.Defs
import Mathlib.Data.List.Basic
import Mathlib.Data.Int.Notation

/-!
# The lexer of the configuration file

`yylex` and what it reads with (`lex.c`). The table of macros belongs to the parser, which defines
macros as it goes: `Env.macros` gives the table for each place where the lexer can stand. A place
is what is still to be read of the file and of those that include it.
-/

namespace Fdm.Lex

/-! ## Tokens -/

inductive Keyword
  | tokbytes | tokgigabytes | tokkilobytes | tokmegabytes | tokaccount | tokaccounts | tokaction
  | tokactions | tokaddheader | tokaddtocache | tokage | tokall | tokallowmany | tokand
  | tokanyname | tokanysize | tokanytype | tokappend | tokattachment | tokbody | tokcache
  | tokcase | tokcmduser | tokcompress | tokcontinue | tokcount | tokcourier | tokdays
  | tokdefuser | tokdeltoobig | tokdisabled | tokdomain | tokdotlock | tokdrop | tokexec
  | tokexpire | tokfcntl | tokfilegroup | tokfileumask | tokflock | tokfolder | tokfolders
  | tokfrom | tokgroup | tokgroups | tokheader | tokheaders | tokhours | tokimap | tokimaps
  | tokin | tokincache | tokinvalid | tokkeep | tokkey | toklockfile | toklocktypes
  | toklookuporder | tokmaildir | tokmaildirs | tokmatch | tokmatched | tokmaxsize | tokmbox
  | tokmboxes | tokminutes | tokmonths | toknewonly | toknntp | toknntps | toknoapop
  | toknocrammd5 | toknocreate | toknologin | toknoreceived | toknotls1 | toknouidl | toknoverify
  | toknone | toknot | tokoldonly | tokor | tokparallelaccounts | tokpass | tokpasswd | tokpipe
  | tokpop3 | tokpop3s | tokport | tokproxy | tokpurgeafter | tokqueuehigh | tokqueuelow
  | tokremovefromcache | tokremoveheader | tokremoveheaders | tokreturns | tokrewrite | tokseconds
  | tokserver | tokset | toksize | toksmtp | tokstdin | tokstdout | tokstring | tokstripcharacters
  | toktag | toktagged | toktimeout | tokto | toktotalsize | tokunmatched | tokimplact | tokuser
  | tokusers | tokvalue | tokverifycerts | tokweeks | tokwrite | tokyears
deriving DecidableEq, Repr

/-- What `yylex` returns, with `yylval`. -/
inductive Tok
  | none
  | string (s : List Char)
  | strcommand (s : List Char)
  | numcommand (s : List Char)
  | strMacro (name : List Char)
  | numMacro (name : List Char)
  | number (n : ℕ)
  | tokeq
  | tokne
  | char (ch : Char)
  | keyword (k : Keyword)
deriving DecidableEq, Repr

/-- The table that `read_token` searches. -/
def tokens : List (String × Keyword) :=
  [("B", .tokbytes), ("G", .tokgigabytes), ("GB", .tokgigabytes), ("K", .tokkilobytes),
    ("KB", .tokkilobytes), ("M", .tokmegabytes), ("MB", .tokmegabytes), ("account", .tokaccount),
    ("accounts", .tokaccounts), ("action", .tokaction), ("actions", .tokactions),
    ("add-header", .tokaddheader), ("add-to-cache", .tokaddtocache), ("age", .tokage),
    ("all", .tokall), ("allow-multiple", .tokallowmany), ("and", .tokand),
    ("any-name", .tokanyname), ("any-size", .tokanysize), ("any-type", .tokanytype),
    ("append", .tokappend), ("attachment", .tokattachment), ("b", .tokbytes), ("body", .tokbody),
    ("byte", .tokbytes), ("bytes", .tokbytes), ("cache", .tokcache), ("case", .tokcase),
    ("command-user", .tokcmduser), ("compress", .tokcompress), ("continue", .tokcontinue),
    ("count", .tokcount), ("courier", .tokcourier), ("day", .tokdays), ("days", .tokdays),
    ("default-user", .tokdefuser), ("delete-oversized", .tokdeltoobig),
    ("disabled", .tokdisabled), ("domain", .tokdomain), ("dotlock", .tokdotlock),
    ("drop", .tokdrop), ("exec", .tokexec), ("expire", .tokexpire), ("fcntl", .tokfcntl),
    ("file-group", .tokfilegroup), ("file-umask", .tokfileumask), ("flock", .tokflock),
    ("folder", .tokfolder), ("folders", .tokfolders), ("from", .tokfrom), ("g", .tokgigabytes),
    ("gb", .tokgigabytes), ("gigabyte", .tokgigabytes), ("gigabytes", .tokgigabytes),
    ("group", .tokgroup), ("groups", .tokgroups), ("header", .tokheader),
    ("headers", .tokheaders), ("hour", .tokhours), ("hours", .tokhours), ("imap", .tokimap),
    ("imaps", .tokimaps), ("in", .tokin), ("in-cache", .tokincache), ("invalid", .tokinvalid),
    ("k", .tokkilobytes), ("kb", .tokkilobytes), ("keep", .tokkeep), ("key", .tokkey),
    ("kilobyte", .tokkilobytes), ("kilobytes", .tokkilobytes), ("lock-file", .toklockfile),
    ("lock-type", .toklocktypes), ("lock-types", .toklocktypes),
    ("lookup-order", .toklookuporder), ("m", .tokmegabytes), ("maildir", .tokmaildir),
    ("maildirs", .tokmaildirs), ("match", .tokmatch), ("matched", .tokmatched),
    ("maximum-size", .tokmaxsize), ("mb", .tokmegabytes), ("mbox", .tokmbox),
    ("mboxes", .tokmboxes), ("megabyte", .tokmegabytes), ("megabytes", .tokmegabytes),
    ("minute", .tokminutes), ("minutes", .tokminutes), ("month", .tokmonths),
    ("months", .tokmonths), ("new-only", .toknewonly), ("nntp", .toknntp), ("nntps", .toknntps),
    ("no-apop", .toknoapop), ("no-cram-md5", .toknocrammd5), ("no-create", .toknocreate),
    ("no-login", .toknologin), ("no-received", .toknoreceived), ("no-tls1", .toknotls1),
    ("no-uidl", .toknouidl), ("no-verify", .toknoverify), ("none", .toknone), ("not", .toknot),
    ("old-only", .tokoldonly), ("or", .tokor), ("parallel-accounts", .tokparallelaccounts),
    ("pass", .tokpass), ("passwd", .tokpasswd), ("pipe", .tokpipe), ("pop3", .tokpop3),
    ("pop3s", .tokpop3s), ("port", .tokport), ("proxy", .tokproxy),
    ("purge-after", .tokpurgeafter), ("queue-high", .tokqueuehigh), ("queue-low", .tokqueuelow),
    ("remove-from-cache", .tokremovefromcache), ("remove-header", .tokremoveheader),
    ("remove-headers", .tokremoveheaders), ("returns", .tokreturns), ("rewrite", .tokrewrite),
    ("second", .tokseconds), ("seconds", .tokseconds), ("server", .tokserver), ("set", .tokset),
    ("size", .toksize), ("smtp", .toksmtp), ("stdin", .tokstdin), ("stdout", .tokstdout),
    ("string", .tokstring), ("strip-characters", .tokstripcharacters), ("tag", .toktag),
    ("tagged", .toktagged), ("timeout", .toktimeout), ("to", .tokto),
    ("to-cache", .tokaddtocache), ("total-size", .toktotalsize), ("unmatched", .tokunmatched),
    ("unmatched-mail", .tokimplact), ("user", .tokuser), ("users", .tokusers),
    ("value", .tokvalue), ("verify-certificates", .tokverifycerts), ("week", .tokweeks),
    ("weeks", .tokweeks), ("write", .tokwrite), ("year", .tokyears), ("years", .tokyears)]

/-- Where `yyerror` is called. -/
inductive LexError
  | syntaxError
  | invalidMacroName
  | unexpectedCharacter (ch : Char)
  | missingEndif
  | spuriousEndif
  | tokenTooLong
  | unknownToken (token : List Char)
  | numberTooLong
  | numberTooLarge
  | macroNameTooLong
  | missing (ch : Char)
  | invalidIncludeFile
  | openFailed (path cause : List Char)
deriving DecidableEq, Repr

/-- The text for `yyerror`. -/
def LexError.text : LexError → List Char
  | syntaxError => "syntax error".toList
  | invalidMacroName => "invalid macro name".toList
  | unexpectedCharacter ch => "unexpected character: ".toList ++ [ch]
  | missingEndif => "missing endif".toList
  | spuriousEndif => "spurious endif".toList
  | tokenTooLong => "token too long".toList
  | unknownToken token => "unknown token: ".toList ++ token
  | numberTooLong => "number too long".toList
  | numberTooLarge => "number is too large".toList
  | macroNameTooLong => "macro name too long".toList
  | missing ch => "missing ".toList ++ [ch]
  | invalidIncludeFile => "invalid include file".toList
  | openFailed path cause => path ++ ": ".toList ++ cause

/-- `struct macro`, without its name. -/
inductive Macro
  | number (num : ℤ)
  | string (str : List Char)
deriving DecidableEq, Repr

/-- What `find_macro` gives for a name. -/
abbrev Macros := List Char → Option Macro

/-! ## Reading -/

/-- A character of a name. -/
def isName (ch : Char) : Bool := ch.isAlphanum || ch = '-' || ch = '_'

/-- `isspace`. -/
def isspace (ch : Char) : Bool := ch = ' ' || (9 ≤ ch.toNat && ch.toNat ≤ 13)

/-- `MAXNAMESIZE`. -/
def maxNameSize : ℕ := 64

/-- `read_number`, from the digit `ch`. -/
def readNumber (ch : Char) (cs : List Char) : Except LexError (ℕ × List Char) :=
  let number := ch :: cs.takeWhile Char.isDigit
  if 31 ≤ number.length then .error .numberTooLong
  else
    let n := number.foldl (fun n ch => 10 * n + (ch.toNat - 48)) 0
    if 2 ^ 63 - 1 < n then .error .numberTooLarge else .ok (n, cs.dropWhile Char.isDigit)

/-- `read_macro`, from the type and the character behind it. -/
def readMacro (type ch : Char) (cs : List Char) : Except LexError (List Char × List Char) :=
  let name (ch : Char) (cs : List Char) : Except LexError (List Char) :=
    let name := type :: ch :: cs.takeWhile isName
    if maxNameSize - 1 ≤ name.length then .error .macroNameTooLong else .ok name
  if ch = '{' then
    match cs with
    | [] => .error .invalidMacroName
    | ch :: cs =>
      if !ch.isAlphanum then .error .invalidMacroName
      else
        match name ch cs with
        | .error e => .error e
        | .ok name =>
          match cs.dropWhile isName with
          | '}' :: cs => .ok (name, cs)
          | _ => .error (.missing '}')
  else (name ch cs).map fun name => (name, cs.dropWhile isName)

/-- A character behind a backslash. -/
def escape : Char → Char
  | 'r' => '\r'
  | 'n' => '\n'
  | 't' => '\t'
  | ch => ch

/-- The text of a macro in a string; a macro that is not there has none. -/
def expand : Option Macro → List Char
  | some (.number num) => (toString num).toList
  | some (.string str) => str
  | none => []

/-- `read_string`. At most `n` characters are read, for which the length of the text is enough. -/
def readString (find : Macros) (endch : Char) (esc : Bool) :
    ℕ → List Char → Except LexError (List Char × List Char)
  | 0, _ => .error (.missing endch)
  | _, [] => .error (.missing endch)
  | n + 1, ch :: cs =>
    let add (s : List Char) (cs : List Char) : Except LexError (List Char × List Char) :=
      (readString find endch esc n cs).map fun (buf, cs) => (s ++ buf, cs)
    if ch = endch then .ok ([], cs)
    else if ch = '\\' && esc then
      match cs with
      | [] => .error (.missing endch)
      | ch :: cs => add [escape ch] cs
    else if (ch = '$' || ch = '%') && esc then
      match cs with
      | [] => .error (.missing endch)
      | '{' :: cs =>
        match readMacro ch '{' cs with
        | .error e => .error e
        | .ok (name, cs) => add (expand (find name)) cs
      | cs => add [ch] cs
    else add [ch] cs

/-- The character that ends a string. -/
theorem readString_close {find : Macros} (endch : Char) (esc : Bool) (n : ℕ) (cs : List Char) :
    readString find endch esc (n + 1) (endch :: cs) = .ok ([], cs) := by
  unfold readString
  exact if_pos rfl

/-- A string, from its first quote. -/
def readQuoted (find : Macros) (quote : Char) (cs : List Char) :
    Except LexError (List Char × List Char) :=
  readString find quote (quote = '"') cs.length cs

/-- `read_command`, inside so many brackets. -/
def readCommand (find : Macros) : ℕ → ℕ → List Char → Except LexError (List Char × List Char)
  | 0, _, _ => .error (.missing ')')
  | _, _, [] => .error (.missing ')')
  | n + 1, nesting, ch :: cs =>
    if ch = ')' && nesting = 0 then .ok ([], cs)
    else if ch = '"' || ch = '\'' then
      match readQuoted find ch cs with
      | .error e => .error e
      | .ok (s, cs) =>
        (readCommand find n nesting cs).map fun (buf, cs) => (ch :: s ++ ch :: buf, cs)
    else
      let nesting := if ch = '(' then nesting + 1 else if ch = ')' then nesting - 1 else nesting
      (readCommand find n nesting cs).map fun (buf, cs) => (ch :: buf, cs)

/-- What is read before a token is decided on. -/
inductive Item
  | token (t : Tok)
  /-- `ifdef`, or `ifndef`, of a macro that is defined or not. -/
  | ifdef (negated defined : Bool)
  | endif
  | incl
deriving DecidableEq, Repr

/-- The word that `read_token` reads, from its first character. -/
def readWord (find : Macros) (ch : Char) (cs : List Char) : Except LexError (Item × List Char) :=
  let token := ch :: cs.takeWhile isName
  let cs := cs.dropWhile isName
  if 127 ≤ token.length then .error .tokenTooLong
  else
    let token := String.ofList token
    if token = "ifdef" || token = "ifndef" then
      match cs.dropWhile isspace with
      | type :: cs =>
        if type ≠ '$' ∧ type ≠ '%' then .error .syntaxError
        else
          match cs with
          | [] => .error .invalidMacroName
          | ch2 :: cs =>
            if ch2 ≠ '{' ∧ !ch2.isAlphanum then .error .invalidMacroName
            else (readMacro type ch2 cs).map fun (name, cs) =>
              (.ifdef (token = "ifndef") (find name).isSome, cs)
      | [] => .error .syntaxError
    else if token = "endif" then .ok (.endif, cs)
    else if token = "include" then .ok (.incl, cs)
    else
      match tokens.find? fun t => t.1 = token with
      | some (_, k) => .ok (.token (.keyword k), cs)
      | none => .error (.unknownToken token.toList)

/-- A macro or a command, from its type. -/
def readMacroOrCommand (find : Macros) (type : Char) (cs : List Char) :
    Except LexError (Item × List Char) :=
  match cs with
  | '(' :: cs => (readCommand find cs.length 0 cs).map fun (s, cs) =>
      (.token (if type = '$' then .strcommand s else .numcommand s), cs)
  | ch :: cs =>
    if ch = '{' || ch.isAlphanum then (readMacro type ch cs).map fun (name, cs) =>
      (.token (if type = '$' then .strMacro name else .numMacro name), cs)
    else .error .invalidMacroName
  | [] => .error .invalidMacroName

/-- The rest of the file behind blanks and comments; the flag says that a comment is read. -/
def skipBlank : Bool → List Char → List Char
  | _, [] => []
  | true, ch :: cs => skipBlank (ch ≠ '\n') cs
  | false, ch :: cs =>
    if ch = '#' then skipBlank true cs
    else if ch = '\n' || ch = ' ' || ch = '\t' then skipBlank false cs
    else ch :: cs

/-- The characters that are tokens. -/
def single : List Char := ['~', '+', '(', ')', ',', '<', '>', '{', '}', '*']

/-- The `switch` of `yylex`; nothing is read at the end of the file. -/
def readItem (find : Macros) (cs : List Char) : Except LexError (Option Item × List Char) :=
  let some' (item : Item × List Char) : Option Item × List Char := (some item.1, item.2)
  match skipBlank false cs with
  | [] => .ok (none, [])
  | ch :: cs =>
    if ch = '\'' || ch = '"' then
      (readQuoted find ch cs).map fun (s, cs) => (some (.token (.string s)), cs)
    else if ch = '$' || ch = '%' then (readMacroOrCommand find ch cs).map some'
    else if ch = '=' then
      match cs with
      | '=' :: cs => .ok (some (.token .tokeq), cs)
      | cs => .ok (some (.token (.char '=')), cs)
    else if ch = '!' then
      match cs with
      | '=' :: cs => .ok (some (.token .tokne), cs)
      | cs => .ok (some (.token (.char '!')), cs)
    else if single.contains ch then .ok (some (.token (.char ch)), cs)
    else if !isName ch then .error (.unexpectedCharacter ch)
    else if ch.isDigit then
      (readNumber ch cs).map fun (n, cs) => (some (.token (.number n)), cs)
    else (readWord find ch cs).map some'

/-! ## `yylex` -/

/-- A place: what is still to be read of the file, and of those that include it. -/
abbrev Place := List (List Char)

/-- What the lexer is given: the macros that are defined when it stands at a place, `replacepath`,
`fopen` (the content of a file, or why it cannot be opened) and the directory of the
configuration. -/
structure Env where
  macros : Place → Macros
  replacepath : List Char → List Char
  fopen : List Char → Except (List Char) (List Char)
  dirname : List Char

/-- The state of the lexer: `parse_file`, `parse_filestack` and the three variables. -/
structure Lexer where
  file : List Char
  filestack : List (List Char) := []
  lexInclude : Bool := false
  lexIfdef : ℕ := 0
  lexSkip : Bool := false
deriving DecidableEq, Repr

/-- Where the lexer stands. -/
def Lexer.place (s : Lexer) : Place := s.file :: s.filestack

/-- The file that `include_start` opens. -/
def includeStart (env : Env) (file : List Char) : Except LexError (List Char) :=
  if file = [] then .error .invalidIncludeFile
  else
    match env.fopen file with
    | .ok content => .ok content
    | .error _ =>
      let path := env.dirname ++ '/' :: file
      match env.fopen path with
      | .ok content => .ok content
      | .error cause => .error (.openFailed path cause)

/-- The path behind `include`, with the macros that are defined: the content of the file, and the
rest of this one. -/
def readInclude (env : Env) (find : Macros) (cs : List Char) :
    Except LexError (List Char × List Char) :=
  match cs.dropWhile isspace with
  | [] => .error .syntaxError
  | ch :: cs =>
    if ch ≠ '"' ∧ ch ≠ '\'' then .error .syntaxError
    else
      match readQuoted find ch cs with
      | .error e => .error e
      | .ok (str, cs) => (includeStart env (env.replacepath str)).map fun content => (content, cs)

/-- What `read_token` does about a word, and what `yylex` does about anything else. -/
def readToken (s : Lexer) : Item → Except LexError (Tok × Lexer)
  | .token t => .ok (t, s)
  | .ifdef negated defined =>
    let s := if negated && defined then { s with lexSkip := true } else s
    let s := if !negated && !defined then { s with lexSkip := true } else s
    .ok (.none, { s with lexIfdef := s.lexIfdef + 1 })
  | .endif =>
    if s.lexIfdef = 0 then .error .spuriousEndif
    else
      let s := { s with lexIfdef := s.lexIfdef - 1 }
      .ok (.none, if s.lexIfdef = 0 then { s with lexSkip := false } else s)
  | .incl => .ok (.none, { s with lexInclude := true })

/-- The loop of `yylex` from `restart`, at most `n` times; the token is `none` for `EOF`. -/
def restart (env : Env) : ℕ → Lexer → Option (Except LexError (Option Tok × Lexer))
  | 0, _ => none
  | n + 1, s =>
    match readItem (env.macros s.place) s.file with
    | .error e => some (.error e)
    | .ok (none, _) =>
      match s.filestack with
      | file :: filestack => restart env n { s with file := file, filestack := filestack }
      | [] =>
        some (if s.lexIfdef ≠ 0 then .error .missingEndif else .ok (none, { s with file := [] }))
    | .ok (some item, cs) =>
      match readToken { s with file := cs } item with
      | .error e => some (.error e)
      | .ok (value, s) => if s.lexSkip then restart env n s else some (.ok (some value, s))

/-- `yylex`. -/
def yylex (env : Env) (n : ℕ) (s : Lexer) : Option (Except LexError (Option Tok × Lexer)) :=
  if s.lexInclude then
    match readInclude env (env.macros s.place) s.file with
    | .error e => some (.error e)
    | .ok (content, cs) =>
      restart env n
        { s with file := content, filestack := cs :: s.filestack, lexInclude := false }
  else restart env n s

end Fdm.Lex
