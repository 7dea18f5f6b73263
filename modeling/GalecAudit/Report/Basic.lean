import GalecAudit.Audit.Outcome
import GalecAudit.Json.Encoding
import GalecAudit.Report.Style

/-!
# Reports

The outcome of a command as a text for a reader and as a JSON text. Both show nothing else than the
command and its outcome, so that equal outcomes have equal reports.
-/
namespace GalecAudit

structure Report where
  command : String
  outcome : Outcome
deriving DecidableEq, Repr, Inhabited

namespace Report

/-- The version of the JSON form. -/
def version : String := "efmi_audit_report_v1"

def toJson (r : Report) : Json :=
  .object [("version", .string version), ("command", .string r.command),
    ("inputs", .strings r.outcome.inputs),
    ("summary", .object [("error_count", .ofNat r.outcome.errorCount),
      ("warning_count", .ofNat r.outcome.warningCount)]),
    ("diagnostics", .array (r.outcome.diagnostics.map Diagnostic.toJson))]

/-- Where a finding belongs, with a blank behind it unless it belongs nowhere. -/
def location (d : Diagnostic) : String :=
  let place := d.source.getD "" ++ match d.line with
    | some line => ":" ++ toString line
    | none => ""
  if place.isEmpty then "" else place ++ " "

def findingLine (d : Diagnostic) : String :=
  s!"  - {location d}[{d.code.name}] {d.message}\n"

def headingStyle : Severity → Style
  | .error => .boldRed
  | .warning => .boldYellow

/-- The findings of one severity under their heading, if there are any. -/
def severityPart (colour : Bool) (diagnostics : List Diagnostic) (severity : Severity) : String :=
  match diagnostics.filter fun d => d.severity == severity with
  | [] => ""
  | findings =>
    "\n" ++ (headingStyle severity).paint colour severity.name ++ "\n" ++
      String.join (findings.map findingLine)

/-- The text for a reader: command, inputs and numbers, then errors before warnings. -/
def text (r : Report) (colour : Bool) : String :=
  let findings :=
    if r.outcome.diagnostics.isEmpty then
      "  " ++ Style.paint .green colour "no findings" ++ "\n"
    else
      severityPart colour r.outcome.diagnostics .error ++
        severityPart colour r.outcome.diagnostics .warning
  Style.paint .bold colour r.command ++ "\n" ++
    String.join (r.outcome.inputs.map fun input => s!"  input: {input}\n") ++
    s!"  summary: errors={r.outcome.errorCount} warnings={r.outcome.warningCount}\n" ++ findings

end Report
end GalecAudit
