import GalecAudit.Manifest.Basic
import GalecAudit.Manifest.ReadError
import GalecAudit.Text.Digits

/-!
# Reading manifests

The root names the manifest. Variables are the children of the first list of variables directly below
the root, files and references those of the lists of their own. Everything else is passed over.
-/
namespace GalecAudit

/-- Sizes are counts of at most 64 bits. -/
def maxSize : Nat := 18446744073709551615

/-- A size in decimal digits, with blanks around it and a plus sign before it if one likes. -/
def readSize? (text : String) : Option Nat :=
  let digits := match (Text.trim text).toList with
    | '+' :: rest => rest
    | cs => cs
  let value := Text.decimalValue digits
  if !digits.isEmpty && digits.all Char.isDigit && decide (value ≤ maxSize) then some value else none

/-- The type of a variable whose element names it. -/
def typeOfElement? : String → Option PrimitiveType
  | "RealVariable" => some .real
  | "IntegerVariable" => some .integer
  | "BooleanVariable" => some .boolean
  | _ => none

/-- What has been read of a manifest, and where in it the reader is. -/
structure ManifestDraft where
  manifest : Manifest := {}
  /-- A list of variables has been found. -/
  isListFound : Bool := false
  isInList : Bool := false
  /-- The variable whose element is open. -/
  current : Option ListedVariable := none
deriving DecidableEq, Repr, Inhabited

namespace ManifestDraft

open Markup (Element Event)

/-- The variable that an element of the list of variables stands for, if it stands for one. The element
of a generic variable has an attribute for its type and none for its causality. -/
def readVariable? (e : Element) : Except ManifestError (Option ListedVariable) := do
  match typeOfElement? e.name with
  | some type =>
    let causality ← e.optional "blockCausality"
    let name ← e.required "name"
    return some
      { name, type, causality := .ofText (causality.getD ""), dimensions := [], line := e.line }
  | none =>
    if e.name = "Variable" then
      let word ← e.required "type"
      match PrimitiveType.ofName? word with
      | none => .error (.unknownType word e.line)
      | some type =>
        let name ← e.required "name"
        return some { name, type, causality := .unspecified, dimensions := [], line := e.line }
    else return none

def readDimension (e : Element) : Except ManifestError Nat := do
  let text ← e.required "size"
  match readSize? text with
  | some size => return size
  | none => .error (.invalidDimension text e.line)

def readFile (e : Element) : Except ManifestError ListedFile := do
  let name ← e.required "name"
  let role ← e.optional "role"
  return { name, role, line := e.line }

def readReference (e : Element) : Except ManifestError ManifestReference := do
  let id ← e.optional "id"
  let target ← e.required "manifestRefId"
  let checksum ← e.optional "checksum"
  return { id := id.getD "", target, checksum, line := e.line }

/-- The roles that the place of an element gives it. -/
inductive Role where
  | root
  | variableList
  | listed
  | dimension
  | file
  | reference
  | other
deriving DecidableEq, Repr

def roleOf (d : ManifestDraft) (e : Element) : Role :=
  if e.depth = 0 then .root
  else if e.depth = 1 ∧ e.name = "Variables" ∧ !d.isListFound then .variableList
  else if e.depth = 2 ∧ d.isInList then .listed
  else if e.name = "Dimension" ∧ e.parent = some "Dimensions" then .dimension
  else if e.depth = 2 ∧ e.name = "File" ∧ e.parent = some "Files" then .file
  else if e.depth = 2 ∧ e.name = "ManifestReference" ∧ e.parent = some "ManifestReferences" then
    .reference
  else .other

def opening (d : ManifestDraft) (e : Element) : Except ManifestError ManifestDraft := do
  match d.roleOf e with
  | .root =>
    let id ← e.optional "id"
    return { d with manifest := { d.manifest with id } }
  | .variableList => return { d with isListFound := true, isInList := true }
  | .listed =>
    match ← readVariable? e with
    | some v => return { d with current := some v }
    | none => return d
  | .dimension =>
    match d.current with
    | none => return d
    | some v =>
      let size ← readDimension e
      return { d with current := some { v with dimensions := v.dimensions ++ [size] } }
  | .file =>
    let file ← readFile e
    return { d with manifest := { d.manifest with files := d.manifest.files ++ [file] } }
  | .reference =>
    let reference ← readReference e
    return { d with
      manifest := { d.manifest with references := d.manifest.references ++ [reference] } }
  | .other => return d

def closing (d : ManifestDraft) (name : String) (depth : Nat) : ManifestDraft :=
  if depth = 2 ∧ d.isInList then
    { d with
      manifest := { d.manifest with listed := d.manifest.listed ++ d.current.toList }
      current := none }
  else if depth = 1 ∧ name = "Variables" then { d with isInList := false }
  else d

def step (d : ManifestDraft) : Event → Except ManifestError ManifestDraft
  | .opening e => d.opening e
  | .closing name depth => .ok (d.closing name depth)

end ManifestDraft

def Manifest.ofEvents (reading : Markup.Reading Markup.Event) : Except ManifestError Manifest :=
  (foldEvents ManifestDraft.step {} reading).map ManifestDraft.manifest

def readManifest (source : String) : Except ManifestError Manifest :=
  Manifest.ofEvents (Markup.readEvents source)

end GalecAudit
