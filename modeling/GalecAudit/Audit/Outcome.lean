import GalecAudit.Diagnostic

/-!
# Outcomes

What an audit has looked at and what it has found.
-/
namespace GalecAudit

structure Outcome where
  /-- The files that were looked at, in this order. -/
  inputs : List String := []
  diagnostics : List Diagnostic := []
deriving DecidableEq, Repr, Inhabited

namespace Outcome

/-- Appends names that are not there yet. -/
def addInputs (inputs : List String) (more : List String) : List String :=
  more.foldl (fun inputs input => if inputs.contains input then inputs else inputs ++ [input]) inputs

/-- Appends another outcome. Inputs that are listed are not repeated, and findings are. -/
def merge (o other : Outcome) : Outcome :=
  { inputs := addInputs o.inputs other.inputs, diagnostics := o.diagnostics ++ other.diagnostics }

/-- Appends findings. -/
def report (o : Outcome) (diagnostics : List Diagnostic) : Outcome :=
  { o with diagnostics := o.diagnostics ++ diagnostics }

def errorCount (o : Outcome) : Nat := o.diagnostics.countP fun d => d.severity == .error

def warningCount (o : Outcome) : Nat := o.diagnostics.countP fun d => d.severity == .warning

def hasErrors (o : Outcome) : Bool := GalecAudit.hasErrors o.diagnostics

end Outcome
end GalecAudit
