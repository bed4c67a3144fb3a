import Fdm.Header
import Fdm.Lib.Strchr
import Fdm.Replace

/-!
# Paths

`expand_path` (`parse-fn.c`), which puts a home directory in the place of a `~` and looks up the
user in the path itself, and `replacepath` (`replace.c`), which goes on with the path when there is
no home directory.
-/

namespace Fdm.Replace

open Lib.Scanf Lib.Strchr

/-! ## The code -/

/-- `struct passwd`; the directory may be NULL. -/
structure Passwd where
  dir : Option (List Char)
deriving DecidableEq, Repr

/-- `pw->pw_dir`, if there is such a user and it is a directory. -/
def pwDir (getpwnam : List Char → Option Passwd) (name : List Char) : Option (List Char) :=
  ((getpwnam name).bind Passwd.dir).filter (· ≠ [])

/-- `expand_path`: what it returns, and the path as it is left. -/
def expandPath (getpwnam : List Char → Option Passwd) (path home : List Char) :
    Option (List Char) × List Char :=
  let spaces := (path.takeWhile isSpace).length
  match path.drop spaces with
  | '~' :: src =>
    if src = [] then (some home, path)
    else if src.head? = some '/' then (some (home ++ '/' :: src.drop 1), path)
    else
      match strchr src '/' with
      | none => (pwDir getpwnam src, path)
      | some ptr =>
        -- the slash is overwritten, and not put back
        ((pwDir getpwnam (src.take ptr)).map (· ++ '/' :: src.drop (ptr + 1)),
          path.set (spaces + 1 + ptr) '\x00')
  | _ => (none, path)

/-- `replacepath`. -/
def replacepath {α : Type} (getpwnam : List Char → Option Passwd) (stripChars : List Char)
    (findTag : List Char → Option (List Char)) (m : Mail α) (rml : Rmlist) (home src : List Char) :
    Option (List Char) :=
  (replace stripChars findTag m rml src).map fun s =>
    let (t, s) := expandPath getpwnam (Mail.cString s) home
    t.getD (Mail.cString s)

/-! ## What it is to do -/

/-- The home directory of a name behind the `~`. -/
def homeOf (getpwnam : List Char → Option Passwd) (home name : List Char) : Option (List Char) :=
  if name = [] then some home else pwDir getpwnam name

/-- The home directory and the rest of a path. -/
def expansion (getpwnam : List Char → Option Passwd) (home path : List Char) :
    Option (List Char) :=
  match path.dropWhile isSpace with
  | '~' :: src =>
    (homeOf getpwnam home (src.takeWhile (· ≠ '/'))).map (· ++ src.dropWhile (· ≠ '/'))
  | _ => none

/-- The path has a directory behind a name without a home directory. -/
def Strands (getpwnam : List Char → Option Passwd) (path : List Char) : Prop :=
  ∃ white name rest, path = white ++ '~' :: (name ++ '/' :: rest) ∧
    (∀ c ∈ white, isSpace c = true) ∧ name ≠ [] ∧ '/' ∉ name ∧ pwDir getpwnam name = none

/-! ## The expansion -/

section

variable {getpwnam : List Char → Option Passwd}

theorem drop_spaces (path : List Char) :
    path.drop (path.takeWhile isSpace).length = path.dropWhile isSpace := by
  have hdrop : ∀ a b : List Char, (a ++ b).drop a.length = b := fun a b => List.drop_left
  have hsplit := hdrop (path.takeWhile isSpace) (path.dropWhile isSpace)
  rwa [List.takeWhile_append_dropWhile] at hsplit

/-- The result is the home directory and the rest of the path, if there is a home directory. -/
theorem expandPath_fst (getpwnam : List Char → Option Passwd) (path home : List Char) :
    (expandPath getpwnam path home).1 = expansion getpwnam home path := by
  unfold expandPath expansion
  dsimp only
  rw [drop_spaces]
  split
  · next src _ =>
    split
    · next hsrc =>
      -- `~` alone
      rw [hsrc]
      simp [homeOf]
    · next hne =>
      split
      · next hslash =>
        -- `~/` and a path
        cases src with
        | nil => cases hslash
        | cons c src =>
          obtain rfl := Option.some.inj hslash
          simp [homeOf]
      · next hslash =>
        split
        · next hptr =>
          -- a name without a path
          have hmem := strchr_eq_none.1 hptr
          rw [takeWhile_ne_self hmem, dropWhile_ne_nil hmem, homeOf, if_neg hne]
          simp
        · next ptr hptr =>
          -- a name and a path: the name ends where the NUL is written
          obtain ⟨name, rest, hname, rfl, rfl⟩ := exists_of_strchr hptr
          have hne' : name ≠ [] := by
            rintro rfl
            exact hslash rfl
          rw [takeWhile_ne hname, dropWhile_ne hname, List.take_left, drop_behind, homeOf,
            if_neg hne']
  · rfl

/-- The slash behind a name is overwritten. -/
theorem expandPath_name {white name : List Char} (hwhite : ∀ c ∈ white, isSpace c = true)
    (hne : name ≠ []) (hname : '/' ∉ name) (rest home : List Char) :
    (expandPath getpwnam (white ++ '~' :: (name ++ '/' :: rest)) home).2 =
      (white ++ '~' :: (name ++ '/' :: rest)).set (white.length + 1 + name.length) '\x00' := by
  have hspaces : (white ++ '~' :: (name ++ '/' :: rest)).takeWhile isSpace = white := by
    rw [List.takeWhile_append_of_pos hwhite, List.takeWhile_cons_of_neg (by decide),
      List.append_nil]
  have hslash : (name ++ '/' :: rest).head? ≠ some '/' := by
    cases name with
    | nil => exact absurd rfl hne
    | cons c name =>
      intro heq
      exact hname (Option.some.inj heq ▸ List.mem_cons_self)
  rw [expandPath, hspaces, List.drop_left]
  split
  · next src hsrc =>
    obtain ⟨-, rfl⟩ := List.cons_eq_cons.1 hsrc
    rw [if_neg (by simp), if_neg hslash, strchr_append hname]
  · next h => exact absurd rfl (h _)

/-- Where there is no expansion and no such name, nothing is overwritten. -/
theorem expandPath_unchanged {path home : List Char}
    (hnone : (expandPath getpwnam path home).1 = none) (h : ¬ Strands getpwnam path) :
    (expandPath getpwnam path home).2 = path := by
  have happend := List.takeWhile_append_dropWhile (p := isSpace) (l := path)
  have hwhite : ∀ c ∈ path.takeWhile isSpace, isSpace c = true := fun c hc =>
    List.mem_takeWhile_imp hc
  unfold expandPath at hnone ⊢
  dsimp only at hnone ⊢
  rw [drop_spaces] at hnone ⊢
  split at hnone
  · next src hsrc =>
    split_ifs at hnone ⊢ with hempty hslash
    split at hnone
    · rfl
    · next ptr hptr =>
      obtain ⟨name, rest, hname, rfl, rfl⟩ := exists_of_strchr hptr
      rw [List.take_left, Option.map_eq_none_iff] at hnone
      refine absurd ⟨path.takeWhile isSpace, name, rest, ?_, hwhite, ?_, hname, hnone⟩ h
      · rw [← hsrc, happend]
      · rintro rfl
        exact hslash rfl
  · rfl

end

/-! ## The path that is used -/

/-- A string with a terminator put into it ends there. -/
theorem cString_set {a b : List Char} {c : Char} (ha : '\x00' ∉ a) :
    Mail.cString ((a ++ c :: b).set a.length '\x00') = a := by
  rw [List.set_append_right _ _ le_rfl, Nat.sub_self, List.set_cons_zero, Mail.cString,
    takeWhile_ne ha]

/-- What is used in the place of a path. -/
theorem getD_expandPath {getpwnam : List Char → Option Passwd} {path home : List Char}
    (hnul : '\x00' ∉ path) :
    ((expandPath getpwnam path home).1.getD (Mail.cString (expandPath getpwnam path home).2) =
      (expansion getpwnam home path).getD path) ↔ ¬ Strands getpwnam path := by
  rw [← expandPath_fst getpwnam path home]
  constructor
  · rintro heq ⟨white, name, rest, rfl, hwhite, hne, hname, hdir⟩
    have hnone : (expandPath getpwnam (white ++ '~' :: (name ++ '/' :: rest)) home).1 = none := by
      have hdrop : (white ++ '~' :: (name ++ '/' :: rest)).dropWhile isSpace =
          '~' :: (name ++ '/' :: rest) := by
        rw [List.dropWhile_append_of_pos hwhite, List.dropWhile_cons_of_neg (by decide)]
      rw [expandPath_fst, expansion, hdrop]
      split
      · next src hsrc =>
        obtain ⟨-, rfl⟩ := List.cons_eq_cons.1 hsrc
        rw [takeWhile_ne hname, homeOf, if_neg hne, hdir, Option.map_none]
      · rfl
    have htext : white ++ '~' :: (name ++ '/' :: rest) = white ++ '~' :: name ++ '/' :: rest := by
      rw [List.append_assoc]
      rfl
    have hlength : white.length + 1 + name.length = (white ++ '~' :: name).length := by
      rw [List.length_append, List.length_cons]
      omega
    have hcut : '\x00' ∉ white ++ '~' :: name := by
      intro hmem
      rw [htext] at hnul
      exact hnul (List.mem_append_left _ hmem)
    rw [hnone, expandPath_name hwhite hne hname, htext, hlength, cString_set hcut] at heq
    have hlen := congrArg List.length heq
    simp at hlen
  · intro hstrands
    cases hpath : (expandPath getpwnam path home).1 with
    | some t => rfl
    | none =>
      rw [expandPath_unchanged hpath hstrands, Mail.cString_eq hnul]

/-- `expand_path` gives what it is to give; and `replacepath` goes on with that, or with the path as
it is, just when the path has no directory behind a name without a home directory. -/
theorem replacepath_iff (getpwnam : List Char → Option Passwd) (home : List Char) :
    (∀ path, (expandPath getpwnam path home).1 = expansion getpwnam home path) ∧
      ∀ {α : Type} (stripChars : List Char) (findTag : List Char → Option (List Char)) (m : Mail α)
        (rml : Rmlist) (src : List Char),
        replacepath getpwnam stripChars findTag m rml home src =
            (replace stripChars findTag m rml src).map (fun s =>
              (expansion getpwnam home (Mail.cString s)).getD (Mail.cString s)) ↔
          ∀ s ∈ replace stripChars findTag m rml src, ¬ Strands getpwnam (Mail.cString s) := by
  refine ⟨fun path => expandPath_fst getpwnam path home, ?_⟩
  intro α stripChars findTag m rml src
  rw [replacepath]
  cases replace stripChars findTag m rml src with
  | none => simp
  | some s =>
    rw [Option.map_some, Option.map_some, Option.some_inj,
      getD_expandPath (Mail.nul_notMem_cString s)]
    simp

/-- Nobody is known. -/
def noPasswd (_ : List Char) : Option Passwd := none

/-- A mail to a directory of a user who is not known goes to a file of the user's name. -/
theorem replacepath_stranded :
    replacepath noPasswd [] (fun _ => none) ({} : Mail Unit) {} ['/', 'h'] ['~', 'b', '/', 'm'] =
        some ['~', 'b'] ∧
      replacepath noPasswd [] (fun _ => none) ({} : Mail Unit) {} ['/', 'h'] ['~', 'b', '/', 'm'] ≠
        (replace [] (fun _ => none) ({} : Mail Unit) {} ['~', 'b', '/', 'm']).map (fun s =>
          (expansion noPasswd ['/', 'h'] (Mail.cString s)).getD (Mail.cString s)) :=
  ⟨by decide, by decide⟩

end Fdm.Replace
