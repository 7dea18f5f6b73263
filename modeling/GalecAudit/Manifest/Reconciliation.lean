import GalecAudit.Diagnostic
import GalecAudit.Variable.Table

/-!
# Reconciliation

The variables at the interfaces of two manifests are compared, each table against the other. Of the
mismatches of one kind on one variable the first that is found is kept, over any number of comparisons.
-/
namespace GalecAudit

inductive MismatchKind where
  | missing
  | type
  | dimension
deriving DecidableEq, Repr, Inhabited

namespace MismatchKind

def name : MismatchKind → String
  | missing => "missing"
  | type => "type"
  | dimension => "dimension"

def code : MismatchKind → Code
  | missing => .missingInRepresentation
  | type => .crossTypeMismatch
  | dimension => .crossDimensionMismatch

end MismatchKind

structure Mismatch where
  /-- The variable. -/
  name : String
  kind : MismatchKind
  message : String
  line : Nat
deriving DecidableEq, Repr, Inhabited

/-- A table and the representation it belongs to. -/
structure Side where
  label : String
  table : VariableTable
deriving Inhabited

namespace Mismatch

/-- Mismatches with the same key are the same finding. -/
def key (m : Mismatch) : String × MismatchKind := (m.name, m.kind)

def ofMissing (name : String) (entry : Entry) (first second : String) : Mismatch :=
  { name, kind := .missing, line := entry.line
    message := s!"The {name} variable from the {first} manifest (line {entry.line}) is not listed in the {second} manifest" }

def ofType (name : String) (entry : Entry) (first second : String) : Mismatch :=
  { name, kind := .type, line := entry.line
    message := s!"The type of the {name} variable from the {first} manifest (line {entry.line}) does not match the type of the same variable in the {second} manifest" }

def ofDimension (name : String) (entry : Entry) (first second : String) : Mismatch :=
  { name, kind := .dimension, line := entry.line
    message := s!"The Dimensions of the {name} variable from the {first} manifest (line {entry.line}) do not match the dimensions of the same variable in the {second} manifest" }

/-- How an entry of the first table differs from the one of its name in the second. -/
def ofEntry (first second : String) (name : String) (entry : Entry) : Option Entry → List Mismatch
  | none => [ofMissing name entry first second]
  | some other =>
    (if entry.type = other.type then [] else [ofType name entry first second]) ++
    (if entry.dimensions = other.dimensions then [] else [ofDimension name entry first second])

def toDiagnostic (m : Mismatch) (source : String) : Diagnostic :=
  (Diagnostic.errorAt m.kind.code m.line m.message).inSource source

end Mismatch

/-- All mismatches of the variables of one side with those of the other, in the order of the names. -/
def Side.mismatches (first second : Side) : List Mismatch :=
  first.table.toList.flatMap fun (name, entry) =>
    Mismatch.ofEntry first.label second.label name entry (second.table.get? name)

structure Reconciliation where
  mismatches : List Mismatch := []
deriving DecidableEq, Repr, Inhabited

namespace Reconciliation

def contains (r : Reconciliation) (key : String × MismatchKind) : Bool :=
  r.mismatches.any fun m => m.key == key

/-- Keeps a mismatch unless one of its key is there. -/
def add (r : Reconciliation) (m : Mismatch) : Reconciliation :=
  if r.contains m.key then r else ⟨r.mismatches ++ [m]⟩

/-- Adds what one comparison finds. -/
def compare (r : Reconciliation) (first second : Side) : Reconciliation :=
  (first.mismatches second).foldl add r

def toDiagnostics (r : Reconciliation) (source : String) : List Diagnostic :=
  r.mismatches.map fun m => m.toDiagnostic source

end Reconciliation

/-- Compares two sides in both directions. -/
def reconcile (first second : Side) : Reconciliation :=
  (Reconciliation.compare {} first second).compare second first

end GalecAudit
