import Fdm.Mail
import Fdm.Lib.Scanf
import Mathlib.Data.List.DropRight

/-!
# Headers

The functions of `mail.c` that look into the headers of a mail: `find_header`,
`find_address` and `make_from`.
-/

namespace Fdm

open Lib.Lines Lib.Scanf

namespace Mail

variable {α : Type}

/-! ## Finding a header -/

/-- The loop of `find_header` over the lines from `off` on. -/
def findHeaderFrom (body : ℕ) (hdr : List Char) : ℕ → List (List Char) → Option (ℕ × List Char)
  | _, [] => none
  | off, l :: ls =>
    if body ≤ off then none
    else if hdr.length + 1 ≤ l.length ∧ l[hdr.length]? = some ':' ∧
        (l.take hdr.length).map Char.toLower = hdr.map Char.toLower then some (off, l)
    else findHeaderFrom body hdr (off + l.length) ls

/-- `find_header`: the offset of the header, and its line. -/
def findHeader (m : Mail α) (hdr : List Char) : Option (ℕ × List Char) :=
  if m.body < hdr.length + 1 ∨ m.size < hdr.length + 1 then none
  else findHeaderFrom m.body hdr 0 (lines m.data)

/-- What `find_header` makes of a header line when only the value is wanted. -/
def headerValue (hdr l : List Char) : List Char :=
  ((l.drop (hdr.length + 1)).dropWhile isSpace).rdropWhile (· = '\n')

/-! ## Finding an address -/

/-- The characters of a string before its NUL. -/
def cString (s : List Char) : List Char := s.takeWhile (· ≠ '\x00')

theorem cString_eq {s : List Char} (h : '\x00' ∉ s) : cString s = s := by
  rw [cString, Lib.Strchr.takeWhile_ne_self h]

/-- A string ends in front of its NUL. -/
theorem nul_notMem_cString (s : List Char) : '\x00' ∉ cString s := by
  intro h
  rw [cString] at h
  simpa using List.mem_takeWhile_imp h

/-- Replace what stands between double quotes with spaces; the flag is set inside of them. -/
def blankQuoted : Bool → List Char → List Char
  | _, [] => []
  | quoted, c :: s =>
    if c = '"' then c :: blankQuoted (!quoted) s
    else (if quoted then ' ' else c) :: blankQuoted quoted s

def isFirst (c : Char) : Bool := c = '<' || c = ' '

def isLast (c : Char) : Bool := c = '>' || c = ' ' || c = ',' || c = ';'

def isUser (c : Char) : Bool :=
  c.isAlphanum || c = '.' || c = '_' || c = '%' || c = '+' || c = '-'

def isDomain (c : Char) : Bool :=
  c.isAlphanum || c = '.' || c = '-' || c = '[' || c = ']'

/-- Where the user part starts: the loop that goes back from `first`. -/
def firstOf (hdr : List Char) : ℕ → ℕ
  | 0 => 0
  | n + 1 => if (hdr[n + 1]?).any isUser then firstOf hdr n else n + 1

/-- The loop of `find_address` from `ptr` on; the first argument bounds its passes. It gives
the start and the length of an address, and `none` when `strchr` is made to start behind the
end of the string. -/
def findAddressFrom (hdr : List Char) : ℕ → ℕ → Option (Option (ℕ × ℕ))
  | 0, _ => some none
  | fuel + 1, ptr =>
    if hdr.length < ptr then none
    else
      match (hdr.drop ptr).findIdx? (· = '@') with
      | none => some none
      | some k =>
        let sign := ptr + k
        let last := sign + 1 + ((hdr.drop (sign + 1)).takeWhile isDomain).length
        if (hdr[last]?).any (!isLast ·) then findAddressFrom hdr fuel (last + 1)
        else
          let first := firstOf hdr (sign - 1)
          if first ≠ 0 ∧ (hdr[first]?).any (!isFirst ·) then findAddressFrom hdr fuel (last + 1)
          -- a `>` at the end goes with a `<` at the start
          else if hdr[last]? = some '>' ∧ hdr[first]? ≠ some '<' then
            findAddressFrom hdr fuel (last + 1)
          else if hdr[first]? = some '<' ∧ hdr[last]? ≠ some '>' then
            findAddressFrom hdr fuel (last + 1)
          else
            let start := if first ≠ 0 then first + 1 else first
            some (some (start, last - start))

/-- `find_address`; `none` stands for a run that reads behind the copy it made. -/
def findAddress (buf : List Char) : Option (Option (ℕ × ℕ)) :=
  if buf = [] then some none
  else
    let hdr := blankQuoted false (cString buf)
    findAddressFrom hdr (hdr.length + 1) 1

/-! ## Making a `From ` line -/

/-- `INT_MAX`. -/
def intMax : ℕ := 2147483647

/-- `"from"`. -/
def fromHeader : List Char := ['f', 'r', 'o', 'm']

/-- The sender that `make_from` takes from the mail, or `user`. -/
def sender (m : Mail α) (user : List Char) : Option (List Char) :=
  match m.findHeader fromHeader with
  | none => some user
  | some (_, l) =>
    let value := headerValue fromHeader l
    if value = [] then some []
    else
      (findAddress value).map fun
        | none => user
        | some (start, len) =>
          if intMax < len then user else cString ((value.drop start).take len)

/-- `make_from`; `ctime` is what `ctime` returns. -/
def makeFrom (m : Mail α) (user ctime : List Char) : Option (List Char) :=
  (m.sender user).map fun name => fromPrefix ++ name ++ [' '] ++ ctime.take 24

/-- The line begins with `From `. -/
theorem makeFrom_starts {m : Mail α} {user ctime f : List Char} (h : m.makeFrom user ctime = some f) :
    fromPrefix <+: f := by
  rw [makeFrom, Option.map_eq_some_iff] at h
  obtain ⟨name, -, rfl⟩ := h
  rw [List.append_assoc, List.append_assoc]
  exact List.prefix_append _ _

/-- A header that is found is a line of the mail. -/
theorem mem_of_findHeaderFrom {body off n : ℕ} {hdr l : List Char} {ls : List (List Char)}
    (h : findHeaderFrom body hdr off ls = some (n, l)) : l ∈ ls := by
  induction ls generalizing off with
  | nil => cases h
  | cons x ls ih =>
    rw [findHeaderFrom] at h
    split_ifs at h
    · simp only [Option.some_inj, Prod.mk.injEq] at h
      rw [h.2]
      exact List.mem_cons_self
    · exact List.mem_cons_of_mem x (ih h)

/-- The value of a header has no newline in it. -/
theorem headerValue_clean {s l : List Char} (hdr : List Char) (h : l ∈ lines s) :
    '\n' ∉ headerValue hdr l := by
  -- what is left of the line has no newline but the last character
  have hsuffix : ∀ t, t <:+ l → '\n' ∉ t.rdropWhile (· = '\n') := by
    intro t ht
    rcases eq_of_mem_lines h with ⟨b, hb, rfl | rfl⟩
    · exact fun hmem => hb (ht.subset ((List.rdropWhile_prefix _ _).subset hmem))
    · rcases List.suffix_concat_iff.mp ht with rfl | ⟨t', rfl, ht'⟩
      · simp
      · rw [List.rdropWhile_concat_pos _ _ _ (by simp)]
        exact fun hmem => hb (ht'.subset ((List.rdropWhile_prefix _ _).subset hmem))
  exact hsuffix _ ((List.dropWhile_suffix _).trans (List.drop_suffix _ _))

/-- The sender is in one line. -/
theorem sender_clean {m : Mail α} {user name : List Char} (huser : '\n' ∉ user)
    (h : m.sender user = some name) : '\n' ∉ name := by
  rw [sender] at h
  split at h
  · rw [← Option.some_inj.mp h]
    exact huser
  · next off l hfind =>
    have hclean : '\n' ∉ headerValue fromHeader l := by
      rw [findHeader] at hfind
      split_ifs at hfind
      exact headerValue_clean _ (mem_of_findHeaderFrom hfind)
    dsimp only at h
    split_ifs at h
    · rw [← Option.some_inj.mp h]
      simp
    · rw [Option.map_eq_some_iff] at h
      obtain ⟨found, -, hname⟩ := h
      cases found with
      | none =>
        rw [← hname]
        exact huser
      | some found =>
        dsimp only at hname
        split_ifs at hname
        · rw [← hname]
          exact huser
        · rw [← hname]
          intro hmem
          have htake := (List.takeWhile_prefix _).subset hmem
          exact hclean (List.drop_subset _ _ (List.take_subset _ _ htake))

/-- A `From ` line is one line, when the user name and the time are. -/
theorem makeFrom_clean {m : Mail α} {user ctime f : List Char} (huser : '\n' ∉ user)
    (htime : '\n' ∉ ctime.take 24) (h : m.makeFrom user ctime = some f) : '\n' ∉ f := by
  rw [makeFrom, Option.map_eq_some_iff] at h
  obtain ⟨name, hname, rfl⟩ := h
  have hclean := sender_clean huser hname
  simp [fromPrefix, hclean, htime]

end Mail

end Fdm
