import GalecAudit.Language.Type
import GalecAudit.Language.Operator
import GalecAudit.Language.Reference

/-!
# Expressions

Expressions with resolved references, their source-like text and the references they mention.
-/
namespace GalecAudit

inductive Expression where
  /-- A literal, with its text as written. -/
  | constant (type : PrimitiveType) (text : String) (line : Nat)
  | reference (r : Reference)
  | binary (left : Expression) (op : BinaryOperator) (right : Expression) (line : Nat)
  | unary (op : UnaryOperator) (operand : Expression) (line : Nat)
  /-- A choice. The pairs are the conditions and values of the `elseif` parts. -/
  | conditional (condition value : Expression) (elseIfs : List (Expression × Expression))
      (otherwise : Expression) (line : Nat)
  | call (name : String) (args : List Expression) (line : Nat)
  | array (elements : List Expression) (line : Nat)
deriving Repr, Inhabited

/-- A call of a function. -/
structure Call where
  name : String
  args : List Expression
  line : Nat
deriving Repr, Inhabited

namespace Expression

mutual

/-- The accesses of an expression from left to right, with those in subscripts and in conditions. -/
def references : Expression → List Reference
  | constant .. => []
  | reference r => r.withIndices
  | binary left _ right _ => left.references ++ right.references
  | unary _ operand _ => operand.references
  | conditional condition value elseIfs otherwise _ =>
    condition.references ++ value.references ++ armReferences elseIfs ++ otherwise.references
  | call _ args _ => listReferences args
  | array elements _ => listReferences elements

def listReferences : List Expression → List Reference
  | [] => []
  | e :: rest => e.references ++ listReferences rest

def armReferences : List (Expression × Expression) → List Reference
  | [] => []
  | (condition, value) :: rest => condition.references ++ value.references ++ armReferences rest

end

def isBinary : Expression → Bool
  | binary .. => true
  | _ => false

/-- An operand as it is written beside an operator: binary operations stand in parentheses. -/
def enclosed (isBinary : Bool) (text : String) : String :=
  if isBinary then "(" ++ text ++ ")" else text

mutual

/-- The text of an expression, with the grouping of its operations made explicit. -/
def text : Expression → String
  | constant _ text _ => text
  | reference r => r.name
  | binary left op right _ =>
    enclosed left.isBinary left.text ++ " " ++ op.symbol ++ " " ++ enclosed right.isBinary right.text
  | unary op operand _ => op.lead ++ enclosed operand.isBinary operand.text
  | conditional condition value elseIfs otherwise _ =>
    "(if " ++ condition.text ++ " then " ++ value.text ++ armText elseIfs ++ " else " ++ otherwise.text
      ++ ")"
  | call name args _ => name ++ "(" ++ ", ".intercalate (listTexts args) ++ ")"
  | array elements _ => "\x7b" ++ ", ".intercalate (listTexts elements) ++ "\x7d"

def listTexts : List Expression → List String
  | [] => []
  | e :: rest => e.text :: listTexts rest

def armText : List (Expression × Expression) → String
  | [] => ""
  | (condition, value) :: rest =>
    " elseif " ++ condition.text ++ " then " ++ value.text ++ armText rest

end

end Expression
end GalecAudit
