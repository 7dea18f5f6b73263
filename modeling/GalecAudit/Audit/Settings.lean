import GalecAudit.Container.Listing

/-!
# Settings

What a user can choose of an audit and of its report.
-/
namespace GalecAudit

inductive ReportFormat where
  | text
  | json
deriving DecidableEq, Repr, Inhabited

namespace ReportFormat

def name : ReportFormat → String
  | text => "text"
  | json => "json"

def all : List ReportFormat := [text, json]

end ReportFormat

/-- What becomes of the finding that a variable is declared twice in one scope. -/
inductive DuplicatePolicy where
  | ignore
  | warn
  | error
deriving DecidableEq, Repr, Inhabited

namespace DuplicatePolicy

def name : DuplicatePolicy → String
  | ignore => "ignore"
  | warn => "warn"
  | error => "error"

def all : List DuplicatePolicy := [ignore, warn, error]

/-- The severity that the policy gives, if it keeps the finding. -/
def severity? : DuplicatePolicy → Option Severity
  | ignore => none
  | warn => some .warning
  | error => some .error

/-- Applies the policy to one finding. Findings of other kinds are not touched. -/
def grade (policy : DuplicatePolicy) (d : Diagnostic) : Option Diagnostic :=
  if d.code = .duplicateDeclaration then
    policy.severity?.map fun severity => { d with severity }
  else some d

end DuplicatePolicy

structure Settings where
  format : ReportFormat := .text
  duplicates : DuplicatePolicy := .warn
  /-- Whether the two representations of a container are reconciled. -/
  crossCheck : Bool := true
  /-- The kind, and the label in messages, of the representation with the checked sources. -/
  algorithmLabel : String := Listing.algorithmKind
  /-- The kind, and the label in messages, of the representation it is reconciled with. -/
  equationLabel : String := Listing.equationKind
  failOnWarnings : Bool := false
deriving DecidableEq, Repr, Inhabited

namespace Settings

/-- The findings as the policy for duplicates grades them. -/
def gradeAll (settings : Settings) (diagnostics : List Diagnostic) : List Diagnostic :=
  diagnostics.filterMap settings.duplicates.grade

/-- Whether findings make a run fail. -/
def fails (settings : Settings) (diagnostics : List Diagnostic) : Bool :=
  diagnostics.any fun d =>
    d.isError || (settings.failOnWarnings && d.severity == .warning)

end Settings
end GalecAudit
