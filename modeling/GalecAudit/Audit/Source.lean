import GalecAudit.Audit.Settings
import GalecAudit.Check.Listing
import GalecAudit.Check.Routine
import GalecAudit.Source.Read

/-!
# Audits of sources

All that can be found in one source of the checked language, given the table of its manifest.
-/
namespace GalecAudit

/-- The one finding on a source that cannot be read. -/
def SourceError.diagnostic (e : SourceError) : Diagnostic :=
  match e with
  | .refused _ => .errorAt .syntaxError e.line e.message
  | .invalidLiteral _ => .errorAt .internalError e.line e.message

/-- The findings on a block that has been read, before the policy for duplicates is applied. -/
def auditBlock (block : Block) (manifest : VariableTable) : List Diagnostic :=
  block.issues ++ compareDeclarations manifest block ++ checkBlock block manifest

/-- The findings on a source, each with its name. -/
def auditSource (settings : Settings) (manifest : VariableTable) (name source : String) :
    List Diagnostic :=
  match readBlock source with
  | .error e => [e.diagnostic.inSource name]
  | .ok block =>
    (settings.gradeAll (auditBlock block manifest)).map fun d => d.inSource name

end GalecAudit
