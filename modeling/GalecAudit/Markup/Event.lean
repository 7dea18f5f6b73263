import GalecAudit.Markup.Attribute

/-!
# Events

A document read as a row of events: elements open and close. An element that is written as an empty tag
opens and closes at once. What is no element leaves no event.
-/
namespace GalecAudit.Markup

open Text (byteSize)

/-- An element where it opens. Names are local: what stands before a first colon is not part of them. -/
structure Element where
  name : String
  parent : Option String
  /-- The number of elements around it. -/
  depth : Nat
  attributes : Attributes
  line : Nat
deriving DecidableEq, Repr, Inhabited

inductive Event where
  | opening (element : Element)
  | closing (name : String) (depth : Nat)
deriving DecidableEq, Repr, Inhabited

/-- The name without the part up to its first colon. -/
def localName (name : List Char) : String :=
  match name.dropWhile (· != ':') with
  | _ :: rest => String.ofList rest
  | [] => String.ofList name

/-- An opening tag or an empty one: the full name and the text of the attributes behind it. -/
structure Tag where
  name : List Char
  attributeText : List Char
  isEmpty : Bool
deriving DecidableEq, Repr, Inhabited

/-- The tag with a content. A slash at its end makes it empty and belongs to nothing else. -/
def Tag.ofContent (content : List Char) : Tag :=
  let isEmpty := content.getLast? == some '/'
  let body := if isEmpty then content.dropLast else content
  let name := body.takeWhile fun c => !isSpace c
  ⟨name, body.drop name.length, isEmpty⟩

/-- The name in a closing tag, without the blanks behind it unless there is nothing else. -/
def closingName (content : List Char) : List Char :=
  match (content.reverse.dropWhile isSpace).reverse with
  | [] => content
  | name => name

/-- The element that a tag opens inside the elements with the given full names, the innermost first. -/
def Tag.element (tag : Tag) (around : List (List Char)) (line : Nat) : Element :=
  { name := localName tag.name
    parent := around.head?.map localName
    depth := around.length
    attributes := .ofText tag.attributeText (byteSize tag.name)
    line }

/-- The events of pieces inside the elements with the given full names, and the fault at which they
end. A fault has the line of the offset where it is noticed; `fault` is the one behind all pieces. -/
def eventsOfPieces (document : List Char) (fault : Option (Nat × Fault)) :
    List (List Char) → List Piece → Reading Event
  | around, [] =>
    match fault, around with
    | some (offset, fault), _ => ⟨[], some (lineOf document offset, fault)⟩
    | none, [] => ⟨[], none⟩
    | none, _ :: _ =>
      ⟨[], some (lineOf document (byteSize document), .unclosed (around.reverse.map localName))⟩
  | around, piece :: rest =>
    match piece.kind with
    | .element =>
      let tag := Tag.ofContent piece.content
      let element := tag.element around (lineOf document (afterBlanks document piece.start))
      if tag.isEmpty then
        let following := eventsOfPieces document fault around rest
        ⟨.opening element :: .closing element.name element.depth :: following.items,
          following.fault⟩
      else
        let following := eventsOfPieces document fault (tag.name :: around) rest
        ⟨.opening element :: following.items, following.fault⟩
    | .closing =>
      let offset := piece.stop - byteSize piece.content
      let content := piece.content.drop 1
      match around with
      | [] =>
        ⟨[], some (lineOf document offset, .mismatchedEnd "" (String.ofList content))⟩
      | name :: outer =>
        if closingName content = name then
          let following := eventsOfPieces document fault outer rest
          ⟨.closing (localName name) outer.length :: following.items, following.fault⟩
        else
          ⟨[], some (lineOf document offset,
            .mismatchedEnd (String.ofList name) (String.ofList (closingName content)))⟩
    | _ => eventsOfPieces document fault around rest

/-- A text without one leading byte order mark. -/
def dropMark (cs : List Char) : List Char :=
  match cs with
  | '\ufeff' :: rest => rest
  | cs => cs

/-- The events of a source and the line of the fault that ends them, if one does. A byte order mark is
dropped from the document; one more is skipped where the first piece is looked for, and offsets do not
count it. -/
def readEvents (source : String) : Reading Event :=
  let document := dropMark source.toList
  let cuts := pieces (dropMark document) 0
  eventsOfPieces document cuts.fault [] cuts.items

end GalecAudit.Markup
