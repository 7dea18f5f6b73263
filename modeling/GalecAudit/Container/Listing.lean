import GalecAudit.Diagnostic
import GalecAudit.Manifest.ReadError
import GalecAudit.Text.Affix

/-!
# Container listings

The listing of a container names its representations with the places of their manifests.
-/
namespace GalecAudit

structure Representation where
  kind : String
  /-- The directory of the representation in that of the container. -/
  name : String
  /-- The manifest in the directory of the representation. -/
  manifest : String
  checksum : Option String
  /-- The identity that the manifest should have. -/
  manifestId : Option String
  line : Nat
deriving DecidableEq, Repr, Inhabited

structure Listing where
  representations : List Representation
deriving DecidableEq, Repr, Inhabited

namespace Listing

/-- The name of the file that holds the listing. -/
def fileName : String := "__content.xml"

def algorithmKind : String := "AlgorithmCode"

def equationKind : String := "EquationCode"

def ofKind (l : Listing) (kind : String) : List Representation :=
  l.representations.filter fun r => r.kind == kind

def firstOfKind? (l : Listing) (kind : String) : Option Representation := (l.ofKind kind).head?

def duplicateRepresentation (r : Representation) : Diagnostic :=
  (Diagnostic.errorAt .duplicateRepresentation r.line
    s!"The eFMU has several Algorithm Code representations ({r.name} on line {r.line})").inSource
      fileName

/-- One finding for each algorithm representation behind the first one. -/
def duplicates (l : Listing) : List Diagnostic :=
  ((l.ofKind algorithmKind).drop 1).map duplicateRepresentation

/-- A path without any `./` that it begins with. -/
def dropCurrent : List Char → List Char
  | '.' :: '/' :: rest => dropCurrent rest
  | cs => cs

def readRepresentation (e : Markup.Element) : Except ManifestError Representation := do
  let manifest ← e.required "manifest"
  let kind ← e.required "kind"
  let name ← e.required "name"
  let checksum ← e.optional "checksum"
  let manifestId ← e.optional "manifestRefId"
  return { kind, name, manifest := String.ofList (dropCurrent manifest.toList), checksum, manifestId,
           line := e.line }

/-- Representations are listed by elements of their name, at any depth. -/
def step (l : Listing) : Markup.Event → Except ManifestError Listing
  | .opening e =>
    if e.name = "ModelRepresentation" then do
      let r ← readRepresentation e
      return ⟨l.representations ++ [r]⟩
    else .ok l
  | .closing .. => .ok l

end Listing

def readListing (source : String) : Except ManifestError Listing :=
  foldEvents Listing.step ⟨[]⟩ (Markup.readEvents source)

end GalecAudit
