/-!
# Primitive types

The three types a variable can have, with the spelling they share in the checked language and in
manifests.
-/
namespace GalecAudit

inductive PrimitiveType where
  | real
  | integer
  | boolean
deriving DecidableEq, Repr, Inhabited

namespace PrimitiveType

def name : PrimitiveType → String
  | real => "Real"
  | integer => "Integer"
  | boolean => "Boolean"

def ofName? : String → Option PrimitiveType
  | "Real" => some real
  | "Integer" => some integer
  | "Boolean" => some boolean
  | _ => none

/-- Reading accepts exactly the names that are written. -/
theorem ofName?_eq_some_iff {s : String} {t : PrimitiveType} : ofName? s = some t ↔ s = t.name := by
  constructor
  · intro h
    unfold ofName? at h
    split at h <;> simp_all [name] <;> subst h <;> rfl
  · rintro rfl
    cases t <;> rfl

/-- What is said of a word that names no type. -/
def unknownMessage (word : String) : String := s!"unknown primitive type `{word}`"

/-- The result type of a built-in function. Functions that are not listed have no known result. -/
def ofBuiltin? (function : String) : Option PrimitiveType :=
  if function ∈ ["real", "sqrt", "abs", "sin", "cos", "tan", "asin", "acos", "atan", "atan2", "exp",
      "log", "log10", "sinh", "cosh", "tanh"] then some real
  else if function ∈ ["integer", "size"] then some integer
  else none

end PrimitiveType
end GalecAudit
