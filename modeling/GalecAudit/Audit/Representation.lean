import GalecAudit.Audit.Outcome
import GalecAudit.Audit.Source
import GalecAudit.Files.Access
import GalecAudit.Files.Path
import GalecAudit.Manifest.Read
import GalecAudit.Manifest.Reconciliation

/-!
# Audits of representations

A representation is audited through its manifest: each of its sources is checked against the table of
the manifest. A file that cannot be used gives a finding of its own and does not stop the audit.
-/
namespace GalecAudit

def unreadableFile (path : String) (failure : FileFailure) : Diagnostic :=
  { severity := .error, code := .io
    message := s!"failed to read {path}: {failure.message}", source := some path }

def invalidManifest (source : String) (e : ManifestError) : Diagnostic :=
  (Diagnostic.errorAt .invalidManifest e.line e.message).inSource source

def missingSource (manifest path : String) : Diagnostic :=
  { severity := .error, code := .missingFile
    message := s!"The Algorithm Code file {path} does not exist", source := some manifest }

def noSources (manifest : String) : Diagnostic :=
  { severity := .error, code := .missingFile
    message := "The manifest lists no Algorithm Code file (.alg with role Code)"
    source := some manifest }

/-- The manifest in what has been read of a file, or the finding that there is none. -/
def manifestOf (path : String) : Except FileFailure String → Except Diagnostic Manifest
  | .error failure => .error (unreadableFile path failure)
  | .ok source =>
    match readManifest source with
    | .error e => .error (invalidManifest path e)
    | .ok manifest => .ok manifest

/-- The places of the sources of a manifest: the given ones, or else those that it lists, seen from its
own directory. -/
def sourcePaths (path : String) (manifest : Manifest) (given : List String) : List String :=
  if given.isEmpty then
    let base := (Path.parent? path).getD "."
    manifest.codeFiles.map fun file => Path.join base file.name
  else given

/-- What is found in a source, given what has been read of it. -/
def outcomeOfSource (settings : Settings) (table : VariableTable) (path : String) :
    Except FileFailure String → Outcome
  | .error failure => { diagnostics := [unreadableFile path failure] }
  | .ok source =>
    { inputs := [path], diagnostics := auditSource settings table path source }

/-- Several outcomes one after the other, with all inputs of each. -/
def Outcome.sequence (outcomes : List Outcome) : Outcome :=
  { inputs := outcomes.flatMap Outcome.inputs, diagnostics := outcomes.flatMap Outcome.diagnostics }

/-- The findings on the interface variables of two manifests. -/
def reconcileManifests (settings : Settings) (first second : Manifest) : List Diagnostic :=
  (reconcile ⟨settings.algorithmLabel, first.table .aggregate⟩
    ⟨settings.equationLabel, second.table .aggregate⟩).toDiagnostics
      (settings.algorithmLabel ++ "/" ++ settings.equationLabel)

section Reading

variable {m : Type → Type} [Monad m] (files : FileAccess m) (settings : Settings)

def loadManifest (path : String) : m (Except Diagnostic Manifest) := do
  return manifestOf path (← files.read path)

/-- Audits one source of a manifest. -/
def auditFile (manifestPath : String) (table : VariableTable) (path : String) : m Outcome := do
  if ← files.isThere path then
    return outcomeOfSource settings table path (← files.read path)
  else return { diagnostics := [missingSource manifestPath path] }

/-- Audits the sources of a manifest that has been read. -/
def auditSources (path : String) (manifest : Manifest) (given : List String) : m Outcome := do
  let table := manifest.table .element
  match sourcePaths path manifest given with
  | [] => return { diagnostics := [noSources path] }
  | paths => return .sequence (← paths.mapM (auditFile files settings path table))

/-- Audits a manifest and its sources. -/
def auditRepresentation (path : String) (given : List String) : m Outcome := do
  let start : Outcome := { inputs := [path] }
  match ← loadManifest files path with
  | .error d => return start.report [d]
  | .ok manifest => return start.merge (← auditSources files settings path manifest given)

/-- Compares the interface variables of two manifests. Each that cannot be read gives a finding. -/
def auditReconciliation (first second : String) : m Outcome := do
  let start : Outcome := { inputs := [first, second] }
  match ← loadManifest files first, ← loadManifest files second with
  | .ok a, .ok b => return start.report (reconcileManifests settings a b)
  | .error d, .ok _ => return start.report [d]
  | .ok _, .error e => return start.report [e]
  | .error d, .error e => return start.report [d, e]

end Reading
end GalecAudit
