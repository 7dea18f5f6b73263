import GalecAudit.Variable.Table

/-!
# Manifests

What the checks need of the manifest of a representation: its identity, the variables that it lists, its
files, and its references to other manifests.
-/
namespace GalecAudit

structure ListedVariable where
  name : String
  type : PrimitiveType
  causality : Causality
  dimensions : List Nat
  line : Nat
deriving DecidableEq, Repr, Inhabited

structure ListedFile where
  name : String
  role : Option String
  line : Nat
deriving DecidableEq, Repr, Inhabited

/-- Sources of the checked language have a name of their kind and the role of code. -/
def ListedFile.isCode (file : ListedFile) : Bool :=
  ".alg".toList.isSuffixOf file.name.toList && file.role == some "Code"

structure ManifestReference where
  id : String
  /-- The identity of the manifest that is referred to. -/
  target : String
  checksum : Option String
  line : Nat
deriving DecidableEq, Repr, Inhabited

structure Manifest where
  id : Option String := none
  /-- The variables, as they are listed. -/
  listed : List ListedVariable := []
  files : List ListedFile := []
  references : List ManifestReference := []
deriving DecidableEq, Repr, Inhabited

namespace Manifest

def codeFiles (m : Manifest) : List ListedFile := m.files.filter ListedFile.isCode

def entryOf (v : ListedVariable) : Entry :=
  { type := v.type, causality := v.causality, line := v.line, dimensions := v.dimensions }

/-- The variables that a table is made of: all of them where arrays are entered element by element, and
those at the interface otherwise. -/
def tableVariables (m : Manifest) : TableMode → List ListedVariable
  | .element => m.listed
  | .aggregate => m.listed.filter fun v => v.causality.isInterface

/-- The table of a manifest. Of variables with one name the last one counts. -/
def table (m : Manifest) (mode : TableMode) : VariableTable :=
  (m.tableVariables mode).foldl (fun table v => table.declare mode v.name (entryOf v)) .empty

end Manifest
end GalecAudit
