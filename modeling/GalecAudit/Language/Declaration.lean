import GalecAudit.Variable.Entry

/-!
# Declarations

What a declaration of the checked language says of a variable, and the records that declared types may
name.
-/
namespace GalecAudit

inductive DeclaredType where
  | primitive (type : PrimitiveType)
  | record (name : String)
deriving DecidableEq, Repr, Inhabited

inductive Dimension where
  | fixed (size : Nat)
  /-- A size that the context gives. -/
  | derived
  /-- A size that is no constant, as it is written. -/
  | symbolic (text : String)
deriving DecidableEq, Repr, Inhabited

structure Declaration where
  name : String
  type : DeclaredType
  causality : Causality
  dimensions : List Dimension
  range : Option ValueRange
  line : Nat
deriving DecidableEq, Repr, Inhabited

def Dimension.size? : Dimension → Option Nat
  | fixed size => some size
  | _ => none

/-- The sizes of an array all of whose sizes are fixed. -/
def Declaration.sizes? (d : Declaration) : Option (List Nat) := d.dimensions.mapM Dimension.size?

structure RecordType where
  name : String
  fields : List Declaration
  line : Nat
deriving DecidableEq, Repr, Inhabited

end GalecAudit
