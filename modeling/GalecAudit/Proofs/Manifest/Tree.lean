import GalecAudit.Manifest.Read
import GalecAudit.Proofs.Markup.Tree

/-!
# The elements of a manifest

Where the variables, the sizes, the files and the references of a manifest stand in the tree of its
document, what they need to be complete, and the manifest that they make.
-/
namespace GalecAudit

open Markup (Event Tree)

namespace Markup.Tree

/-- Whether an element in the list of variables stands for a variable. -/
def IsVariable (t : Tree) : Prop :=
  t.name ∈ ["RealVariable", "IntegerVariable", "BooleanVariable", "Variable"]

instance : DecidablePred IsVariable := fun t => inferInstanceAs (Decidable (t.name ∈ _))

/-- The elements of the variables: those of the first list of variables directly below the root. -/
def variableElements (root : Tree) : List Tree :=
  ((root.childrenNamed "Variables").take 1).flatMap fun list => list.children.filter IsVariable

mutual
/-- What stands below an element, in the order of the document, each with the name of the element
directly around it. -/
def descendants : Tree → List (String × Tree)
  | node name _ _ children => descendantsOfAll name children

def descendantsOfAll (parent : String) : List Tree → List (String × Tree)
  | [] => []
  | t :: ts => (parent, t) :: (t.descendants ++ descendantsOfAll parent ts)
end

/-- The elements of sizes among elements that are listed with the names around them. -/
def sizesAmong (ts : List (String × Tree)) : List Tree :=
  (ts.filter fun p => p.1 = "Dimensions" ∧ p.2.name = "Dimension").map Prod.snd

def sizeElements (t : Tree) : List Tree := sizesAmong t.descendants

def fileElements (root : Tree) : List Tree :=
  (root.childrenNamed "Files").flatMap (·.childrenNamed "File")

def referenceElements (root : Tree) : List Tree :=
  (root.childrenNamed "ManifestReferences").flatMap (·.childrenNamed "ManifestReference")

/-- The type of the element of a variable. That of a generic one is an attribute. -/
def type? (t : Tree) : Option PrimitiveType :=
  if t.name = "Variable" then (t.attribute? "type").bind PrimitiveType.ofName?
  else typeOfElement? t.name

/-- The role of the element of a variable. A generic one has none. -/
def causality (t : Tree) : Causality :=
  if t.name = "Variable" then .unspecified else .ofText ((t.attribute? "blockCausality").getD "")

def size? (t : Tree) : Option Nat := (t.attribute? "size").bind readSize?

/-- The variable of an element that has a name, a type and sizes that can be read. -/
def asVariable (t : Tree) : ListedVariable where
  name := (t.attribute? "name").getD ""
  type := t.type?.getD default
  causality := t.causality
  dimensions := t.sizeElements.filterMap size?
  line := t.line

/-- The file of an element that has a name. -/
def asFile (t : Tree) : ListedFile where
  name := (t.attribute? "name").getD ""
  role := t.attribute? "role"
  line := t.line

/-- The reference of an element that has a target. An identity of its own it may lack. -/
def asReference (t : Tree) : ManifestReference where
  id := (t.attribute? "id").getD ""
  target := (t.attribute? "manifestRefId").getD ""
  checksum := t.attribute? "checksum"
  line := t.line

/-- The manifest of a root whose elements are complete. -/
def manifest (root : Tree) : Manifest where
  id := root.attribute? "id"
  listed := root.variableElements.map asVariable
  files := root.fileElements.map asFile
  references := root.referenceElements.map asReference

/-- The elements that a manifest is made of have what they need. -/
structure IsComplete (root : Tree) : Prop where
  named : ∀ t ∈ root.variableElements, ∃ name, t.attribute? "name" = some name
  typed : ∀ t ∈ root.variableElements, t.name = "Variable" →
    ∃ word ∈ ["Real", "Integer", "Boolean"], t.attribute? "type" = some word
  sized : ∀ t ∈ root.variableElements, ∀ d ∈ t.sizeElements,
    ∃ text size, d.attribute? "size" = some text ∧ readSize? text = some size
  stored : ∀ t ∈ root.fileElements, ∃ name, t.attribute? "name" = some name
  targeted : ∀ t ∈ root.referenceElements, ∃ target, t.attribute? "manifestRefId" = some target

/-- The variable of an element is complete up to its sizes. -/
def IsTyped (t : Tree) : Prop := (t.attribute? "name").isSome ∧ t.type?.isSome

section Attributes

variable {t : Tree} {parent : Option String} {depth : Nat} {key : String}

theorem optional_element : (t.element parent depth).optional key = .ok (t.attribute? key) := by
  change (t.attributes.written.value? key).mapError _ = _
  rw [SoundAttributes.value?_written]
  rfl

theorem required_element_eq_ok_iff {value : String} :
    (t.element parent depth).required key = .ok value ↔ t.attribute? key = some value := by
  unfold Element.required
  rw [optional_element]
  cases t.attribute? key <;> simp

end Attributes

theorem sizesAmong_append (ts us : List (String × Tree)) :
    sizesAmong (ts ++ us) = sizesAmong ts ++ sizesAmong us := by
  unfold sizesAmong
  rw [List.filter_append, List.map_append]

end Markup.Tree

end GalecAudit
