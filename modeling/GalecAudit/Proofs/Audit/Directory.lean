import GalecAudit.Audit.Container
import GalecAudit.Proofs.Check.Errors

/-!
# Directories

What the paths of a directory hold while an audit reads it, and what the audit makes of a manifest and of
a source that is there, is missing or cannot be read.
-/
namespace GalecAudit

/-- What a path holds. -/
inductive FileContent where
  /-- Nothing, with the failure of reading it. -/
  | absent (failure : FileFailure)
  | unreadable (failure : FileFailure)
  | text (source : String)

/-- The content of every path, fixed while an audit runs. -/
structure Directory where
  content : String → FileContent

def Directory.read (d : Directory) (path : String) : Except FileFailure String :=
  match d.content path with
  | .text source => .ok source
  | .absent failure | .unreadable failure => .error failure

def Directory.isThere (d : Directory) (path : String) : Bool :=
  match d.content path with
  | .absent _ => false
  | .unreadable _ | .text _ => true

/-- Access to the files of a directory. An audit writes nothing, and nothing can be written. -/
def Directory.files (d : Directory) : FileAccess Id where
  read := d.read
  isThere := d.isThere
  write _ _ := .error (.system "Read-only file system" 30)

variable {d : Directory} {settings : Settings}

theorem Directory.read_eq_ok_iff {path source : String} :
    d.read path = .ok source ↔ d.content path = .text source := by
  unfold Directory.read
  cases d.content path with
  | absent | unreadable => simp
  | text other => rw [Except.ok.injEq, FileContent.text.injEq]

/-- The manifest at a path, if a manifest can be read there. -/
def Directory.manifest? (d : Directory) (path : String) : Option Manifest :=
  match d.content path with
  | .text source => (readManifest source).toOption
  | .absent _ | .unreadable _ => none

/-- A path holds a source that builds, with nothing to find in its declarations and routines and with no
error among its issues under the policy for duplicates. -/
def Directory.CleanSource (d : Directory) (settings : Settings) (table : VariableTable)
    (path : String) : Prop :=
  ∃ source block, d.content path = .text source ∧ readBlock source = .ok block ∧
    compareDeclarations table block = [] ∧ checkBlock block table = [] ∧
    hasErrors (settings.gradeAll block.issues) = false

theorem Outcome.hasErrors_merge (o other : Outcome) :
    (o.merge other).hasErrors = (o.hasErrors || other.hasErrors) :=
  hasErrors_append o.diagnostics other.diagnostics

theorem Outcome.hasErrors_report (o : Outcome) (ds : List Diagnostic) :
    (o.report ds).hasErrors = (o.hasErrors || GalecAudit.hasErrors ds) :=
  hasErrors_append o.diagnostics ds

theorem Outcome.hasErrors_sequence_eq_false_iff {outcomes : List Outcome} :
    (Outcome.sequence outcomes).hasErrors = false ↔ ∀ o ∈ outcomes, o.hasErrors = false := by
  unfold Outcome.sequence Outcome.hasErrors GalecAudit.hasErrors
  rw [List.any_flatMap, List.any_eq_false]
  simp

theorem mapM_id {α β : Type} (f : α → Id β) (l : List α) : l.mapM f = (l.map f : Id (List β)) :=
  List.mapM_pure

/-- What has been read of a manifest is a failure or the manifest at the path. -/
theorem Directory.manifestOf_eq_ok_iff {path : String} {m : Manifest} :
    manifestOf path (d.read path) = .ok m ↔ d.manifest? path = some m := by
  unfold Directory.read Directory.manifest? manifestOf
  cases d.content path with
  | absent | unreadable => simp
  | text source =>
    dsimp only
    cases readManifest source with
    | error e => simp [Except.toOption]
    | ok other => rw [Except.ok.injEq, Except.toOption, Option.some.injEq]

theorem isError_of_manifestOf {path : String} {text : Except FileFailure String} {e : Diagnostic}
    (h : manifestOf path text = .error e) : e.isError = true := by
  unfold manifestOf at h
  split at h
  · cases h
    rfl
  · split at h
    · cases h
      rfl
    · cases h

theorem hasErrors_auditSource_eq_false_iff {table : VariableTable} {name source : String} :
    hasErrors (auditSource settings table name source) = false ↔
      ∃ block, readBlock source = .ok block ∧ compareDeclarations table block = [] ∧
        checkBlock block table = [] ∧ hasErrors (settings.gradeAll block.issues) = false := by
  unfold auditSource
  cases readBlock source with
  | error e =>
    have he : hasErrors [e.diagnostic.inSource name] = true := by cases e <;> rfl
    simp [he]
  | ok block =>
    simp only [hasErrors_map_inSource, hasErrors_auditBlock_eq_false_iff, Except.ok.injEq,
      exists_eq_left']
    exact and_comm.trans and_assoc

/-- The audit of a file finds no error exactly if the file is a clean source. A file that is missing or
cannot be read is an error. -/
theorem Directory.hasErrors_auditFile_eq_false_iff {manifestPath path : String}
    {table : VariableTable} :
    Outcome.hasErrors (auditFile d.files settings manifestPath table path) = false ↔
      d.CleanSource settings table path := by
  change Outcome.hasErrors (if d.isThere path = true then
    outcomeOfSource settings table path (d.read path)
    else { diagnostics := [missingSource manifestPath path] }) = false ↔ _
  unfold CleanSource Directory.isThere Directory.read
  cases d.content path with
  | absent failure => simp [Outcome.hasErrors, hasErrors, missingSource, Diagnostic.isError]
  | unreadable failure =>
    simp [outcomeOfSource, Outcome.hasErrors, hasErrors, unreadableFile, Diagnostic.isError]
  | text source =>
    simp only [if_true, outcomeOfSource, Outcome.hasErrors, hasErrors_auditSource_eq_false_iff,
      FileContent.text.injEq]
    constructor
    · rintro ⟨block, hb⟩
      exact ⟨source, block, rfl, hb⟩
    · rintro ⟨_, block, rfl, hb⟩
      exact ⟨block, hb⟩

/-- The place of a source that a manifest lists. -/
def codePath (manifestPath : String) (file : ListedFile) : String :=
  Path.join ((Path.parent? manifestPath).getD ".") file.name

/-- The sources of a manifest that has some are audited one after another. -/
theorem Directory.auditSources_eq_sequence {path : String} {m : Manifest} (h : m.codeFiles ≠ []) :
    auditSources d.files settings path m [] = Outcome.sequence (m.codeFiles.map fun file =>
      auditFile d.files settings path (m.table .element) (codePath path file)) := by
  have hp : sourcePaths path m [] = m.codeFiles.map (codePath path) := rfl
  unfold auditSources
  rw [hp]
  cases hfiles : m.codeFiles with
  | nil => exact absurd hfiles h
  | cons first rest =>
    rw [List.map_cons]
    dsimp only
    rw [mapM_id, ← List.map_cons, List.map_map]
    rfl

/-- The audit of the sources of a manifest finds no error exactly if there are sources and all of them
are clean. -/
theorem Directory.hasErrors_auditSources_eq_false_iff {path : String} {m : Manifest} :
    Outcome.hasErrors (auditSources d.files settings path m []) = false ↔
      m.codeFiles ≠ [] ∧ ∀ file ∈ m.codeFiles,
        d.CleanSource settings (m.table .element) (codePath path file) := by
  by_cases hfiles : m.codeFiles = []
  · have hp : sourcePaths path m [] = [] := congrArg (List.map (codePath path)) hfiles
    refine iff_of_false (fun h => ?_) fun h => h.1 hfiles
    unfold auditSources at h
    rw [hp] at h
    cases h
  · rw [auditSources_eq_sequence hfiles, Outcome.hasErrors_sequence_eq_false_iff, and_iff_right hfiles]
    simp only [List.forall_mem_map, hasErrors_auditFile_eq_false_iff]

end GalecAudit
