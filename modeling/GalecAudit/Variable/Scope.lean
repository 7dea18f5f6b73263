import GalecAudit.Text.Affix
import GalecAudit.Variable.Table

/-!
# Scopes

A scope is a row of tables. The first table that knows a name decides what the name means.
-/
namespace GalecAudit

structure Scope where
  layers : List VariableTable
deriving Inhabited

/-- A name without its subscripts. Brackets may be nested, and a closing bracket that closes nothing is
dropped. -/
def dropSubscripts (depth : Nat) : List Char → List Char
  | [] => []
  | '[' :: rest => dropSubscripts (depth + 1) rest
  | ']' :: rest => dropSubscripts (depth - 1) rest
  | c :: rest => if depth = 0 then c :: dropSubscripts depth rest else dropSubscripts depth rest

def baseName (name : String) : String := String.ofList (dropSubscripts 0 name.toList)

/-- A name under which a reference may be declared. The name of a whole array stands for one of its
elements only where the array is not listed element by element. -/
structure Candidate where
  name : String
  isAggregate : Bool
deriving DecidableEq, Repr, Inhabited

/-- The name inside `'previous(…)'`. -/
def previousOf? (name : String) : Option String := Text.between? "'previous(" ")'" name

/-- The candidates for a name, in the order in which they are tried: the name itself, its array, and
both for the variable behind a previous value. A name is tried once. -/
def candidates (name : String) : List Candidate :=
  let own : List Candidate := [⟨name, false⟩, ⟨baseName name, true⟩]
  let previous : List Candidate :=
    match previousOf? name with
    | some inner => [⟨inner, false⟩, ⟨baseName inner, true⟩]
    | none => []
  (own ++ previous).eraseDupsBy fun a b => a.name == b.name

namespace Scope

/-- The entry of the first table that knows a name. -/
def find? (scope : Scope) (name : String) : Option Entry :=
  scope.layers.findSome? fun table => table.get? name

/-- The entry that a candidate stands for, if it stands for one. -/
def resolve? (scope : Scope) (c : Candidate) : Option Entry :=
  (scope.find? c.name).filter fun entry => !c.isAggregate || !isExpanded entry.dimensions

/-- The entry that the name of a reference means. -/
def lookup (scope : Scope) (name : String) : Option Entry :=
  (candidates name).findSome? scope.resolve?

end Scope
end GalecAudit
