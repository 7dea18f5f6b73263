import GalecAudit.Markup.Fault
import GalecAudit.Markup.Offset

/-!
# Pieces of markup

A document is cut into pieces, each of which stands between an opening bracket and the closing bracket
that belongs to it. The text between the pieces means nothing. Cutting is lenient: a closing tag needs
no closing bracket at the end of the document.
-/
namespace GalecAudit.Markup

open Text (byteSize leadingByte)

/-- Blanks of markup, which are fewer than those of the Unicode property. -/
def isSpace (c : Char) : Bool := c == ' ' || c == '\t' || c == '\r' || c == '\n'

inductive PieceKind where
  | element
  | closing
  | instruction
  | comment
  | characterData
  | documentType
deriving DecidableEq, Repr, Inhabited

/-- A piece as it stands behind its opening bracket: its content, with the mark that tells its kind,
and whether a closing bracket follows. -/
structure Cut where
  kind : PieceKind
  content : List Char
  isClosed : Bool
deriving DecidableEq, Repr, Inhabited

namespace Cut

def text (c : Cut) : List Char := if c.isClosed then c.content ++ ['>'] else c.content

end Cut

/-- A fault and the number of bytes from the opening bracket to the place where it is noticed. -/
structure CutFault where
  fault : Fault
  distance : Nat
deriving DecidableEq, Repr, Inhabited

/-- The text up to the first closing bracket outside quotes. -/
def elementContent? (quote : Option Char) : List Char → Option (List Char)
  | [] => none
  | c :: rest =>
    match quote with
    | some q => (elementContent? (if c = q then none else some q) rest).map (c :: ·)
    | none =>
      if c = '>' then some []
      else
        (elementContent? (if c = '"' ∨ c = '\x27' then some c else none) rest).map (c :: ·)

/-- The text up to the first closing bracket before which it is complete. The part that is already
read stands in `read`, its last character first. -/
def contentWhere? (isComplete : List Char → Bool) (read : List Char) : List Char → Option (List Char)
  | [] => none
  | c :: rest =>
    if c = '>' && isComplete read then some read.reverse
    else contentWhere? isComplete (c :: read) rest

/-- A comment needs two hyphens before its end, and they are not those that begin it. -/
def completesComment (read : List Char) : Bool := ['-', '-'].isPrefixOf read && decide (5 ≤ read.length)

def completesCharacterData (read : List Char) : Bool := [']', ']'].isPrefixOf read

/-- A document type may hold pieces of its own. -/
def completesDocumentType (read : List Char) : Bool := read.count '<' == read.count '>'

/-- Whether a text begins with another one, whatever the case of its ASCII letters. -/
def beginsWith (lead cs : List Char) : Bool :=
  (cs.take lead.length).map Char.toUpper == lead

/-- The piece up to the first closing bracket, or to the end of the document. -/
def cutAtBracket (kind : PieceKind) (cs : List Char) : Cut :=
  let content := cs.takeWhile (· != '>')
  { kind, content, isClosed := decide (content.length < cs.length) }

def cutInstruction (cs : List Char) : Except CutFault Cut :=
  let c := cutAtBracket .instruction cs
  if 2 < c.content.length ∧ c.content.getLast? = some '?' then .ok c
  else .error ⟨.unfinished .instruction, byteSize c.text - byteSize c.content⟩

/-- A complete construct, which is refused where its beginning is not spelled out. -/
def checkedCut (kind : PieceKind) (construct : Construct) (isSpelled : Bool) (content : List Char) :
    Except CutFault Cut :=
  let c : Cut := ⟨kind, content, true⟩
  if isSpelled then .ok c else .error ⟨.unfinished construct, byteSize c.text⟩

def cutComment (cs : List Char) : Except CutFault Cut :=
  match contentWhere? completesComment [] cs with
  | some content =>
    checkedCut .comment .comment (['!', '-', '-'].isPrefixOf content) content
  | none => .error ⟨.unfinished .comment, 0⟩

def cutCharacterData (cs : List Char) : Except CutFault Cut :=
  match contentWhere? completesCharacterData [] cs with
  | some content =>
    checkedCut .characterData .characterData
      (beginsWith "![CDATA[".toList (content.take (content.length - 2))) content
  | none => .error ⟨.unfinished .characterData, 0⟩

def cutDocumentType (cs : List Char) : Except CutFault Cut :=
  match contentWhere? completesDocumentType [] cs with
  | some content =>
    if !beginsWith "!DOCTYPE".toList content then
      checkedCut .documentType .documentType false content
    else if (content.drop 8).all isSpace then
      .error ⟨.emptyDocumentType, byteSize content + 1⟩
    else checkedCut .documentType .documentType true content
  | none => .error ⟨.unfinished .documentType, 0⟩

/-- The piece behind an opening bracket. -/
def cut (cs : List Char) : Except CutFault Cut :=
  match cs with
  | '!' :: '[' :: _ => cutCharacterData cs
  | '!' :: '-' :: _ => cutComment cs
  | '!' :: 'D' :: _ => cutDocumentType cs
  | '!' :: 'd' :: _ => cutDocumentType cs
  | '!' :: c :: _ => .error ⟨.unexpectedSymbol (leadingByte c), 0⟩
  | ['!'] => .error ⟨.unfinished .declaration, 0⟩
  | '/' :: _ => .ok (cutAtBracket .closing cs)
  | '?' :: _ => cutInstruction cs
  | _ =>
    match elementContent? none cs with
    | some content => .ok ⟨.element, content, true⟩
    | none => .error ⟨.unfinished .element, 0⟩

/-- A piece in its document. It starts at its opening bracket, or at the blanks before it if nothing but
blanks stands between it and the piece before. -/
structure Piece where
  kind : PieceKind
  content : List Char
  start : Nat
  /-- The offset behind the piece. -/
  stop : Nat
deriving DecidableEq, Repr, Inhabited

/-- Items in the order of the document up to its end or to a fault, which has an offset or a line. -/
structure Reading (α : Type) where
  items : List α
  fault : Option (Nat × Fault)
deriving Repr, Inhabited

/-- The pieces of a text that stands at an offset outside all pieces. -/
def pieces (cs : List Char) (offset : Nat) : Reading Piece :=
  let skipped := cs.takeWhile (· != '<')
  match _h : cs.drop skipped.length with
  | [] => ⟨[], none⟩
  | [_] => ⟨[], none⟩
  | _ :: inner =>
    let behind := offset + byteSize skipped + 1
    match cut inner with
    | .error e => ⟨[], some (behind + e.distance, e.fault)⟩
    | .ok c =>
      let stop := behind + byteSize c.text
      let start := if skipped.all isSpace then offset else offset + byteSize skipped
      let following := pieces (inner.drop c.text.length) stop
      ⟨⟨c.kind, c.content, start, stop⟩ :: following.items, following.fault⟩
termination_by cs.length
decreasing_by
  have hlen := congrArg List.length _h
  simp only [List.length_drop, List.length_cons] at hlen ⊢
  omega

end GalecAudit.Markup
