import GalecAudit.Audit.Representation
import GalecAudit.Container.References

/-!
# Audits of containers

A container is audited through its listing: every manifest is read and has the identity that the listing
asks for, the sources of the first algorithm representation are checked, the first two representations
are reconciled, and the references between all manifests are followed.
-/
namespace GalecAudit

/-- A representation with the place of its manifest and what has been read of it. -/
structure Loaded where
  representation : Representation
  path : String
  manifest : Except Diagnostic Manifest

def identityMismatch (r : Representation) (expected : String) (id : Option String) : Diagnostic :=
  let identity := id.getD "none"
  (Diagnostic.errorAt .manifestIdMismatch r.line
    s!"The manifestRefId ({expected}) of the {r.kind} representation does not match the id ({identity}) of its manifest").inSource
      Listing.fileName

def missingRepresentation (kind : String) : Diagnostic :=
  { severity := .error, code := .missingFile
    message := s!"{Listing.fileName} lists no {kind} representation"
    source := some Listing.fileName }

/-- The finding on a manifest without the identity that the listing asks for, if it asks for one. -/
def Representation.checkIdentity (r : Representation) (m : Manifest) : List Diagnostic :=
  match r.manifestId with
  | some expected => if m.id = some expected then [] else [identityMismatch r expected m.id]
  | none => []

namespace Loaded

def findings (l : Loaded) : List Diagnostic :=
  match l.manifest with
  | .error d => [d]
  | .ok m => l.representation.checkIdentity m

/-- The manifest with the kind of its representation, if it could be read. -/
def labelled? (l : Loaded) : Option LabelledManifest :=
  match l.manifest with
  | .error _ => none
  | .ok m => some ⟨l.representation.kind, m⟩

/-- A readable manifest of a kind, with its place. -/
def ofKind? (kind : String) (l : Loaded) : Option (String × Manifest) :=
  match l.manifest with
  | .error _ => none
  | .ok m => if l.representation.kind = kind then some (l.path, m) else none

end Loaded

/-- The place of the manifest of a representation. -/
def Representation.manifestPath (dir : String) (r : Representation) : String :=
  Path.join (Path.join dir r.name) r.manifest

/-- The findings on the representations that are reconciled, if both are there and it is asked for. -/
def crossCheck (settings : Settings) (loaded : List Loaded) : List Diagnostic :=
  if settings.crossCheck then
    match loaded.findSome? (Loaded.ofKind? settings.algorithmLabel),
      loaded.findSome? (Loaded.ofKind? settings.equationLabel) with
    | some (_, first), some (_, second) => reconcileManifests settings first second
    | _, _ => []
  else []

section Reading

variable {m : Type → Type} [Monad m] (files : FileAccess m) (settings : Settings)

def loadRepresentation (dir : String) (r : Representation) : m Loaded := do
  let path := r.manifestPath dir
  return ⟨r, path, ← loadManifest files path⟩

/-- Audits the sources of the first readable algorithm representation. There is a finding where the
container lists none; one that is listed and cannot be read has its finding elsewhere. -/
def auditAlgorithm (listing : Listing) (loaded : List Loaded) : m Outcome := do
  match loaded.findSome? (Loaded.ofKind? settings.algorithmLabel) with
  | some (path, manifest) => auditSources files settings path manifest []
  | none =>
    if (listing.firstOfKind? settings.algorithmLabel).isNone then
      return { diagnostics := [missingRepresentation settings.algorithmLabel] }
    else return {}

/-- Audits the representations of a listing. -/
def auditListing (dir : String) (start : Outcome) (listing : Listing) : m Outcome := do
  let loaded ← listing.representations.mapM (loadRepresentation files dir)
  let manifests : Outcome :=
    { inputs := start.inputs ++ loaded.map Loaded.path
      diagnostics := start.diagnostics ++ listing.duplicates ++ loaded.flatMap Loaded.findings }
  let sources ← auditAlgorithm files settings listing loaded
  return (manifests.merge sources).report
    (crossCheck settings loaded ++ unresolvedReferences (loaded.filterMap Loaded.labelled?))

/-- Audits the container in a directory. -/
def auditContainer (dir : String) : m Outcome := do
  let path := Path.join dir Listing.fileName
  let start : Outcome := { inputs := [path] }
  match ← files.read path with
  | .error failure => return start.report [unreadableFile path failure]
  | .ok source =>
    match readListing source with
    | .error e => return start.report [invalidManifest Listing.fileName e]
    | .ok listing => auditListing files settings dir start listing

end Reading
end GalecAudit
