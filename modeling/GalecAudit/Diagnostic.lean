/-!
# Diagnostics

A diagnostic says that a contract is broken, where, and how badly. The texts name the offending
variable or expression and its line; they suggest no repair.
-/
namespace GalecAudit

inductive Severity where
  | error
  | warning
deriving DecidableEq, Repr, Inhabited

def Severity.name : Severity → String
  | .error => "error"
  | .warning => "warning"

/-- The kinds of findings. -/
inductive Code where
  | io
  | invalidManifest
  | missingFile
  | syntaxError
  | internalError
  | unsupportedConstruct
  | duplicateDeclaration
  | mismatchedEndName
  | undeclaredVariable
  | typeMismatch
  | illogicalCondition
  | undeclaredSignal
  | missingDeclaration
  | unlistedVariable
  | causalityMismatch
  | missingInRepresentation
  | crossTypeMismatch
  | crossDimensionMismatch
  | unresolvedManifestReference
  | manifestIdMismatch
  | duplicateRepresentation
deriving DecidableEq, Repr, Inhabited

namespace Code

def name : Code → String
  | io => "io"
  | invalidManifest => "invalid-manifest"
  | missingFile => "missing-file"
  | syntaxError => "syntax-error"
  | internalError => "internal-error"
  | unsupportedConstruct => "unsupported-construct"
  | duplicateDeclaration => "duplicate-declaration"
  | mismatchedEndName => "mismatched-end-name"
  | undeclaredVariable => "undeclared-variable"
  | typeMismatch => "type-mismatch"
  | illogicalCondition => "illogical-condition"
  | undeclaredSignal => "undeclared-signal"
  | missingDeclaration => "missing-declaration"
  | unlistedVariable => "unlisted-variable"
  | causalityMismatch => "causality-mismatch"
  | missingInRepresentation => "missing-in-representation"
  | crossTypeMismatch => "cross-type-mismatch"
  | crossDimensionMismatch => "cross-dimension-mismatch"
  | unresolvedManifestReference => "unresolved-manifest-reference"
  | manifestIdMismatch => "manifest-id-mismatch"
  | duplicateRepresentation => "duplicate-representation"

def all : List Code :=
  [io, invalidManifest, missingFile, syntaxError, internalError, unsupportedConstruct,
   duplicateDeclaration, mismatchedEndName, undeclaredVariable, typeMismatch, illogicalCondition,
   undeclaredSignal, missingDeclaration, unlistedVariable, causalityMismatch,
   missingInRepresentation, crossTypeMismatch, crossDimensionMismatch, unresolvedManifestReference,
   manifestIdMismatch, duplicateRepresentation]

end Code

structure Diagnostic where
  severity : Severity
  code : Code
  message : String
  line : Option Nat := none
  /-- The file or representation that the finding belongs to. -/
  source : Option String := none
deriving DecidableEq, Repr, Inhabited

namespace Diagnostic

/-- An error on a line of a source that is named later. -/
def errorAt (code : Code) (line : Nat) (message : String) : Diagnostic :=
  { severity := .error, code, message, line := some line }

def warningAt (code : Code) (line : Nat) (message : String) : Diagnostic :=
  { severity := .warning, code, message, line := some line }

def inSource (d : Diagnostic) (source : String) : Diagnostic := { d with source := some source }

def isError (d : Diagnostic) : Bool := d.severity == .error

/-- One line for a reader: the source if there is one, severity, code and message. -/
def text (d : Diagnostic) : String :=
  let source := match d.source with
    | some source => source ++ ": "
    | none => ""
  source ++ d.severity.name ++ " [" ++ d.code.name ++ "]: " ++ d.message

end Diagnostic

def hasErrors (diagnostics : List Diagnostic) : Bool := diagnostics.any Diagnostic.isError

end GalecAudit
