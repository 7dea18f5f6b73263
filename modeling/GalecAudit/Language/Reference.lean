/-!
# References

A variable access after its subscripts have been resolved. Its name is the key under which the
variable stands in a table: segments are joined by dots and constant subscripts are part of the name.
-/
namespace GalecAudit

/-- The text of a list of subscripts, without brackets. -/
def indexText {α : Type} [ToString α] (indices : List α) : String :=
  ",".intercalate (indices.map toString)

/-- The name of an element of an array. -/
def indexedName {α : Type} [ToString α] (name : String) (indices : List α) : String :=
  name ++ "[" ++ indexText indices ++ "]"

/-- An access to the variable `name`. Where a subscript is not constant the name is that of the whole
array, and the variables that the subscript mentions are kept in `indexReferences`. -/
structure Reference where
  name : String
  isState : Bool
  line : Nat
  indexReferences : List Reference
deriving Repr, Inhabited

namespace Reference

/-- The name of an element of a possibly already subscripted name: `m` gives `m[2]`, and `m[2]` gives
`m[2,3]`. -/
def elementName (name : String) (indices : List Nat) : String :=
  if name.toList.getLast? = some ']' then
    String.ofList name.toList.dropLast ++ "," ++ indexText indices ++ "]"
  else indexedName name indices

/-- The element of a reference at the given positions, which count from one. -/
def element (r : Reference) (indices : List Nat) : Reference :=
  { r with name := elementName r.name indices }

mutual

/-- A reference followed by the references of its subscripts, to any depth. -/
def withIndices : Reference → List Reference
  | ⟨name, isState, line, indices⟩ => ⟨name, isState, line, indices⟩ :: allWithIndices indices

def allWithIndices : List Reference → List Reference
  | [] => []
  | r :: rest => r.withIndices ++ allWithIndices rest

end

end Reference
end GalecAudit
