import Fdm.Header

/-!
# Attachments

The tree of the attachments of a mail: `attach_type` reads a Content-Type header, `attach_get`
one part of a multipart and the parts inside of it, and `attach_build` a whole mail.
-/

namespace Fdm

open Lib.Lines Lib.Scanf

/-- `struct attach`. The nodes are numbered in the order of their `xmalloc`, and `addr` is the
number of a node; `parent` is the number of the node that it is linked to. -/
structure Attach where
  addr : ℕ
  parent : Option ℕ := none
  idx : ℕ := 0
  data : ℕ := 0
  size : ℕ := 0
  body : ℕ := 0
  type : List Char
  name : Option (List Char) := none
  children : List Attach := []

namespace Attach

/-- Why there is no result: the function returns NULL, it reads behind the end of the mail, or
a bound of this model on its passes is too low (which `attachBuild_fuel` excludes). -/
inductive Stop
  | failed
  | behind
  | fuel
deriving DecidableEq, Repr

abbrev Read (α : Type) : Type := Except Stop α

/-! ## `attach_type` -/

/-- `memchr` in the rest of a mail. -/
def memchr (c : Char) (s : List Char) (len : ℕ) : Read (Option ℕ) :=
  match (s.take len).findIdx? (· = c) with
  | some i => .ok (some i)
  | none => if len ≤ s.length then .ok none else .error .behind

/-- Skip white space, newlines as well. -/
def skipSpaces : List Char → ℕ → Read (List Char × ℕ)
  | s, 0 => .ok (s, 0)
  | [], _ + 1 => .error .behind
  | c :: s, len + 1 => if isSpace c then skipSpaces s len else .ok (c :: s, len + 1)

/-- A value of some length, with quotes around it or without. The first character is looked at
whatever the length is. -/
def unquote (s : List Char) (llen : ℕ) : Read (List Char) :=
  if s = [] then .error .behind
  else if s.head? = some '"' then
    if llen < 2 ∨ s[llen - 1]? ≠ some '"' then .error .failed
    else .ok (Mail.cString ((s.drop 1).take (llen - 2)))
  else .ok (Mail.cString (s.take llen))

/-- The value of an attribute, from behind its `=` on; `llen` is what is left of the line. -/
def attrValue (s : List Char) (llen : ℕ) : Read (List Char) :=
  (memchr ';' s llen).bind fun semi => unquote s (semi.getD llen)

/-- The loop of `attach_type` over the attributes. -/
def attachAttr (name : List Char) : ℕ → List Char → ℕ → Read (Option (List Char))
  | 0, _, _ => .error .fuel
  | fuel + 1, s, len =>
    (skipSpaces s len).bind fun (s, len) =>
      if len = 0 then .error .failed
      else
        (memchr '\n' s len).bind fun nl =>
          let llen := nl.getD len
          (memchr '=' s llen).bind fun
            | none => .ok none
            | some i =>
              if i = name.length ∧ s.take name.length = name then
                (attrValue (s.drop (i + 1)) (llen - (i + 1))).map some
              else
                (memchr ';' s llen).bind fun
                  | none => .ok none
                  -- `hdr` is moved before `len` is made less, so that `len` stays as it is
                  | some j => attachAttr name fuel (s.drop (j + 1)) len

/-- `"content-type"`. -/
def contentType : List Char :=
  ['c', 'o', 'n', 't', 'e', 'n', 't', '-', 't', 'y', 'p', 'e']

/-- A line with a Content-Type header. -/
def isContentType (l : List Char) : Bool := (l.take 13).map Char.toLower = contentType ++ [':']

/-- The type of some length, and the attributes behind it. -/
def typeOf (name s : List Char) (len tlen : ℕ) : Read (List Char × Option (List Char)) :=
  let type := Mail.cString (s.take tlen)
  if len - tlen = 0 ∨ (s.drop tlen).head? = some '\n' then .ok (type, none)
  else
    (attachAttr name (s.length + 1) (s.drop (tlen + 1)) (len - tlen - 1)).map fun value =>
      (type, value)

/-- `attach_type` on the rest of a mail: the type, and the value of an attribute if there is
one. -/
def attachType (name s : List Char) : Read (List Char × Option (List Char)) :=
  if !isContentType s then .error .failed
  else
    (skipSpaces (s.drop 13) (s.length - 13)).bind fun (s, len) =>
      if len = 0 then .error .failed
      else
        (memchr '\n' s len).bind fun nl =>
          (memchr ';' s (nl.getD len)).bind fun semi =>
            typeOf name s len (semi.getD (nl.getD len))

/-! ## `attach_get` and `attach_build` -/

/-- `"multipart/"`. -/
def multipart : List Char := ['m', 'u', 'l', 't', 'i', 'p', 'a', 'r', 't', '/']

def isMultipart (type : List Char) : Bool := (type.take 10).map Char.toLower = multipart

/-- `"boundary"`. -/
def boundaryAttr : List Char := ['b', 'o', 'u', 'n', 'd', 'a', 'r', 'y']

/-- `"name"`. -/
def nameAttr : List Char := ['n', 'a', 'm', 'e']

/-- What a line with a boundary starts with. -/
def dashed (b : List Char) : List Char := '-' :: '-' :: b

/-- A boundary in front of a part: `len - 3 == bl`. -/
def isOpen (b l : List Char) : Bool := l.length = b.length + 3 && (dashed b).isPrefixOf l

/-- A boundary behind the last part: `len - 5 == bl`. -/
def isClose (b l : List Char) : Bool := l.length = b.length + 5 && (dashed b).isPrefixOf l

/-- The same, when the dashes behind the boundary are looked at. -/
def isLast (b l : List Char) : Bool :=
  isClose b l && (l.drop (b.length + 2)).take 2 = ['-', '-']

/-- The offset of a line, given the lines from there on. -/
def offset (size : ℕ) (ptr : List (List Char)) : ℕ := size - ptr.flatten.length

/-- A part that is no multipart: `hdr` are the lines from its Content-Type header on, and `data`
is its offset. The result is the node, the lines from the next boundary on, and `*last`. -/
def attachLeaf (size : ℕ) (b : List Char) (addr data : ℕ) (type : List Char)
    (name : Option (List Char)) (hdr : List (List Char)) :
    Read (Attach × List (List Char) × Bool) :=
  match hdr.dropWhile fun l => 1 < l.length with
  | [] => .error .failed
  | blank :: body =>
    match body.dropWhile fun l => !(isLast b l || isOpen b l) with
    | [] => .error .failed
    | l :: ptr =>
      let at' : Attach :=
        { addr := addr, data := data, body := offset size (blank :: body),
          size := offset size (l :: ptr) - data, type := type, name := name }
      .ok (at', l :: ptr, isLast b l)

mutual

/-- `attach_get` with the lines from `*ptr` on, which are none for NULL; `next` is the number of
the next node. The result is the node, the next number, the lines that are left, and `*last`.
The first argument bounds the depth of the calls. -/
def attachGet (size : ℕ) :
    ℕ → List Char → ℕ → List (List Char) → Read (Attach × ℕ × List (List Char) × Bool)
  | 0, _, _, _ => .error .fuel
  | fuel + 1, b, next, ptr =>
    match ptr.dropWhile fun l => !isContentType l with
    | [] => .error .failed
    | hdr =>
      (attachType nameAttr hdr.flatten).bind fun (type, name) =>
        if !isMultipart type then
          (attachLeaf size b next (offset size ptr) type name hdr).map fun (at', ptr, last) =>
            (at', next + 1, ptr, last)
        else
          (attachType boundaryAttr hdr.flatten).bind fun
            | (_, none) => .error .failed
            | (type, some b2) =>
              (attachChildren size fuel b2 false next 0 (next + 1)
                (hdr.dropWhile fun l => !isOpen b2 l) false).bind fun (children, next', rest) =>
                  match rest.dropWhile fun l => !isClose b2 l with
                  | [] => .error .failed
                  | _ :: rest =>
                    let atr : Attach :=
                      { addr := next, data := offset size ptr, type := type, name := name,
                        children := children }
                    .ok (atr, next', rest, false)

/-- The loop over the parts of a multipart with the number `addr`, from the part `n` on. Only
the loop of `attach_build` looks for a boundary that ends it, which is what `stops` says. -/
def attachChildren (size : ℕ) :
    ℕ → List Char → Bool → ℕ → ℕ → ℕ → List (List Char) → Bool →
      Read (List Attach × ℕ × List (List Char))
  | 0, _, _, _, _, _, _, _ => .error .fuel
  | fuel + 1, b, stops, addr, n, next, ptr, last =>
    if ptr = [] ∨ last ∨ (stops ∧ isClose b (ptr.headD [])) then .ok ([], next, ptr)
    else
      (attachGet size fuel b next ptr).bind fun (at', next, ptr, last) =>
        (attachChildren size fuel b stops addr (n + 1) next ptr last).map fun (ats, next, ptr) =>
          ({ at' with idx := n, parent := some addr } :: ats, next, ptr)

end

/-- `attach_build` from the first boundary on, which is none for NULL. -/
def attachRoot (size : ℕ) (type b : List Char) (ptr : List (List Char)) : Read Attach :=
  if ptr = [] then .error .failed
  else
    (attachChildren size (2 * ptr.length + 1) b true 0 0 1 ptr false).bind
      fun (children, _, ptr) =>
        if ptr = [] then .error .failed
        else .ok { addr := 0, type := type, children := children }

/-- `attach_build`. -/
def attachBuild {α : Type} (m : Mail α) : Read Attach :=
  match m.findHeader contentType with
  | none => .error .failed
  | some (off, _) =>
    (attachType boundaryAttr (m.data.drop off)).bind fun
      | (_, none) => .error .failed
      | (type, some b) =>
        if !isMultipart type then .error .failed
        else attachRoot m.size type b ((lines m.data).dropWhile fun l => !isOpen b l)

end Attach

end Fdm
