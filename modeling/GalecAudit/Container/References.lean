import GalecAudit.Diagnostic
import GalecAudit.Manifest.Basic

/-!
# References between manifests

A manifest may refer to other manifests of its container by their identity. It does not refer to itself,
even where its own identity is asked for.
-/
namespace GalecAudit

/-- A manifest with the kind of its representation. -/
structure LabelledManifest where
  label : String
  manifest : Manifest
deriving DecidableEq, Repr, Inhabited

/-- Whether one of the manifests is the one that is referred to. -/
def ManifestReference.resolvesIn (r : ManifestReference) (manifests : List LabelledManifest) : Bool :=
  manifests.any fun m => m.manifest.id == some r.target

def unresolvedReference (label : String) (r : ManifestReference) : Diagnostic :=
  (Diagnostic.errorAt .unresolvedManifestReference r.line
    s!"The manifestRefId of the ManifestReference (id = {r.id}) in the {label} representation does not match any of the existing representation manifests").inSource label

/-- The references of one manifest to none of the others. -/
def LabelledManifest.unresolved (m : LabelledManifest) (others : List LabelledManifest) :
    List Diagnostic :=
  (m.manifest.references.filter fun r => !r.resolvesIn others).map (unresolvedReference m.label)

/-- The references of all manifests of a list to none at another place of it. -/
def unresolvedReferences (manifests : List LabelledManifest) : List Diagnostic :=
  manifests.zipIdx.flatMap fun (m, place) => m.unresolved (manifests.eraseIdx place)

end GalecAudit
