import GalecAudit.Language.Type
import GalecAudit.Language.Causality
import GalecAudit.Language.Reference

/-!
# Table entries and array elements

What a table knows of a declared name, and the names of the elements of an array. Arrays of rank one
to three are listed element by element; other arrays are known as a whole only.
-/
namespace GalecAudit

/-- The bounds of a range specification, as texts of numbers. -/
structure ValueRange where
  min : Option String := none
  max : Option String := none
deriving DecidableEq, Repr, Inhabited

structure Entry where
  type : PrimitiveType
  causality : Causality
  /-- The line of the declaration in its own source. -/
  line : Nat
  dimensions : List Nat := []
  /-- The position in its array, for an entry that is an element of one. -/
  elementIndex : Option (List Nat) := none
  range : Option ValueRange := none
deriving DecidableEq, Repr, Inhabited

def Entry.isElement (entry : Entry) : Bool := entry.elementIndex.isSome

/-- The entry of an element of an array. -/
def Entry.atIndex (entry : Entry) (index : List Nat) : Entry :=
  { entry with dimensions := [], elementIndex := some index }

/-- Arrays of higher rank are not listed element by element. -/
def maxExpandedRank : Nat := 3

/-- Whether an array of these sizes is listed element by element. -/
def isExpanded (dimensions : List Nat) : Bool :=
  !dimensions.isEmpty && decide (dimensions.length ≤ maxExpandedRank) && !dimensions.contains 0

/-- All positions in an array of the given sizes. They count from one, and the last one runs fastest. -/
def positions : List Nat → List (List Nat)
  | [] => [[]]
  | size :: rest => (List.range' 1 size).flatMap fun i => (positions rest).map (i :: ·)

/-- The names and positions of the elements of an array that is listed element by element. -/
def elementKeys (name : String) (dimensions : List Nat) : List (String × List Nat) :=
  if isExpanded dimensions then
    (positions dimensions).map fun index => (indexedName name index, index)
  else []

end GalecAudit
