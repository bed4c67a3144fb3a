import Fdm.Attach.Defs

/-!
# Messages with parts

A message in the usual form: a tree of parts, each with its Content-Type header, an empty line
and its body; the parts of a multipart stand behind lines with its boundary, and a last such
line ends it and may have more lines of text behind it.
-/

namespace Fdm.Attach

/-- The parts of a message. The lines of a body and of what follows a multipart are given
without their newlines. -/
inductive Part
  | leaf (type : List Char) (name : Option (List Char)) (body : List (List Char))
  | multipart (type boundary : List Char) (children : List Part) (epilogue : List (List Char))

/-- A line with its newline. -/
def newline (l : List Char) : List Char := l ++ ['\n']

/-- `"Content-Type: "`. -/
def headerStart : List Char :=
  ['C', 'o', 'n', 't', 'e', 'n', 't', '-', 'T', 'y', 'p', 'e', ':', ' ']

/-- An attribute of a Content-Type header, with quotes around its value. -/
def attrText (name value : List Char) : List Char :=
  [';', ' '] ++ name ++ ['=', '"'] ++ value ++ ['"']

/-- A Content-Type header with an attribute or without. -/
def contentTypeLine (type : List Char) (attr : List Char) : List Char :=
  newline (headerStart ++ type ++ attr)

/-- The line in front of a part. -/
def openLine (b : List Char) : List Char := newline (dashed b)

/-- The line behind the last part. -/
def closeLine (b : List Char) : List Char := newline (dashed b ++ ['-', '-'])

namespace Part

/-- A part that is no multipart. -/
def isLeaf : Part → Bool
  | leaf _ _ _ => true
  | multipart _ _ _ _ => false

/-- The Content-Type header of a part. -/
def header : Part → List Char
  | leaf type name _ => contentTypeLine type (name.elim [] (attrText nameAttr))
  | multipart type boundary _ _ => contentTypeLine type (attrText boundaryAttr boundary)

mutual

/-- The lines of a part behind its Content-Type header. -/
def content : Part → List (List Char)
  | leaf _ _ body => ['\n'] :: body.map newline
  | multipart _ boundary children epilogue =>
    ['\n'] :: (inside boundary children ++ closeLine boundary :: epilogue.map newline)

/-- The lines of the parts of a multipart. -/
def inside (b : List Char) : List Part → List (List Char)
  | [] => []
  | p :: ps => openLine b :: p.header :: (content p ++ inside b ps)

end

mutual

/-- The boundaries in a part. -/
def boundaries : Part → List (List Char)
  | leaf _ _ _ => []
  | multipart _ boundary children _ => boundary :: boundariesInside children

/-- The boundaries in some parts. -/
def boundariesInside : List Part → List (List Char)
  | [] => []
  | p :: ps => boundaries p ++ boundariesInside ps

end

mutual

/-- The lines of text in a part: of the bodies, and behind the multiparts. -/
def text : Part → List (List Char)
  | leaf _ _ body => body
  | multipart _ _ children epilogue => textInside children ++ epilogue

/-- The lines of text in some parts. -/
def textInside : List Part → List (List Char)
  | [] => []
  | p :: ps => text p ++ textInside ps

end

/-- A value that can stand between quotes in a header. -/
def Quotable (value : List Char) : Prop := '"' ∉ value ∧ '\n' ∉ value ∧ '\x00' ∉ value

/-- A type that can stand in a header. -/
structure IsType (type : List Char) : Prop where
  start : ∃ c t, type = c :: t ∧ Lib.Scanf.isSpace c = false
  plain : ';' ∉ type ∧ '\n' ∉ type ∧ '\x00' ∉ type

mutual

/-- A part whose headers are in order. -/
def InOrder : Part → Prop
  | leaf type name _ => IsType type ∧ isMultipart type = false ∧ ∀ value ∈ name, Quotable value
  | multipart type boundary children _ =>
    IsType type ∧ isMultipart type = true ∧ Quotable boundary ∧ InOrderInside children

/-- Parts whose headers are in order. -/
def InOrderInside : List Part → Prop
  | [] => True
  | p :: ps => InOrder p ∧ InOrderInside ps

end

end Part

/-- A line of text in a message with some boundaries: a Content-Type header is no such line, and
none starts with a boundary. -/
structure IsText (boundaries : List (List Char)) (l : List Char) : Prop where
  oneLine : '\n' ∉ l
  plain : isContentType l = false
  apart : ∀ b ∈ boundaries, ¬ dashed b <+: l

/-- A message: its other headers, in front of the Content-Type header, and a tree of parts. -/
structure Message where
  headers : List (List Char)
  root : Part
  inOrder : root.InOrder
  headers_ne : ∀ l ∈ headers, l ≠ []
  isText : ∀ l ∈ headers ++ root.text, IsText root.boundaries l

namespace Message

/-- The lines of a message. -/
def lines (msg : Message) : List (List Char) :=
  msg.headers.map newline ++ msg.root.header :: msg.root.content

/-- A message as it is fetched. -/
def mail {α : Type} (msg : Message) : Mail α :=
  ({ data := msg.lines.flatten } : Mail α).withBody

end Message

/-! ## The tree of a message -/

mutual

/-- The node of a part. -/
def Mirrors : Attach → Part → Prop
  | atr, .leaf type name _ => atr.type = type ∧ atr.name = name ∧ atr.children = []
  | atr, .multipart type _ children _ =>
    atr.type = type ∧ atr.name = none ∧ MirrorsInside atr.addr 0 atr.children children

/-- The nodes of the parts of a multipart, from the one with some position on: each has its
position, and is linked to the node of the multipart. -/
def MirrorsInside (addr : ℕ) : ℕ → List Attach → List Part → Prop
  | _, ats, [] => ats = []
  | n, ats, p :: ps => ∃ atr rest, ats = atr :: rest ∧ atr.idx = n ∧ atr.parent = some addr ∧
      Mirrors atr p ∧ MirrorsInside addr (n + 1) rest ps

end

mutual

/-- The numbers of the nodes in a tree. -/
def addrs : Attach → List ℕ
  | ⟨addr, _, _, _, _, _, _, _, children⟩ => addr :: addrsInside children

/-- The numbers of the nodes in some trees. -/
def addrsInside : List Attach → List ℕ
  | [] => []
  | atr :: ats => addrs atr ++ addrsInside ats

end

/-- The tree of a message: different nodes have different numbers, and the first one is linked
to none. -/
structure IsTree (msg : Message) (atr : Attach) : Prop where
  mirrors : Mirrors atr msg.root
  parent : atr.parent = none
  nodup : (addrs atr).Nodup

end Fdm.Attach
