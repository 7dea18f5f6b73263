import GalecAudit.Language.Expression
import GalecAudit.Variable.Scope

/-!
# Value classes

What an expression evaluates to as far as declarations tell. The classes are ordered: an unknown value
fits every context, logical and numeric values fit one each, and an invalid value fits none.
-/
namespace GalecAudit

inductive ValueClass where
  /-- The result of an unknown function, or an undeclared variable. -/
  | unknown
  | logical
  | numeric
  /-- Operands that no operator accepts. -/
  | invalid
deriving DecidableEq, Repr, Inhabited

namespace ValueClass

def name : ValueClass → String
  | unknown => "Unknown"
  | logical => "Logical"
  | numeric => "Numeric"
  | invalid => "Invalid"

/-- Fits where a truth value is required. -/
def isLogical : ValueClass → Bool
  | logical | unknown => true
  | _ => false

/-- Fits where a number is required. -/
def isNumeric : ValueClass → Bool
  | numeric | unknown => true
  | _ => false

/-- The least class that is above both. -/
def join : ValueClass → ValueClass → ValueClass
  | unknown, c => c
  | c, unknown => c
  | a, b => if a = b then a else invalid

def ofType : PrimitiveType → ValueClass
  | .boolean => logical
  | .real | .integer => numeric

/-- Whether a value of a class may be assigned to a variable of a type. -/
def fits (c : ValueClass) : PrimitiveType → Bool
  | .boolean => c.isLogical
  | .real | .integer => c.isNumeric

def ofUnary : UnaryOperator → ValueClass → ValueClass
  | .not, operand => if operand.isLogical then logical else invalid
  | .negate, operand => if operand.isNumeric then numeric else invalid

/-- The class of an operation: `and` and `or` take truth values, comparisons take numbers and give a
truth value, and arithmetic takes and gives numbers. -/
def ofBinary (op : BinaryOperator) (left right : ValueClass) : ValueClass :=
  if op.isLogical then
    if left.isLogical && right.isLogical then logical else invalid
  else if left.isNumeric && right.isNumeric then
    if op.isComparison then logical else numeric
  else invalid

end ValueClass

/-- The class of a reference. Any other type than a Boolean is a number. -/
def Scope.classOf (scope : Scope) (name : String) : ValueClass :=
  match scope.lookup name with
  | some entry => .ofType entry.type
  | none => .unknown

mutual

def classify (scope : Scope) : Expression → ValueClass
  | .constant type _ _ => .ofType type
  | .reference r => scope.classOf r.name
  | .binary left op right _ => .ofBinary op (classify scope left) (classify scope right)
  | .unary op operand _ => .ofUnary op (classify scope operand)
  | .conditional _ value elseIfs otherwise _ =>
    ((classify scope value).join (classifyArms scope elseIfs)).join (classify scope otherwise)
  | .call name _ _ =>
    match PrimitiveType.ofBuiltin? name with
    | some _ => .numeric
    | none => .unknown
  | .array elements _ => classifyAll scope elements

def classifyAll (scope : Scope) : List Expression → ValueClass
  | [] => .unknown
  | e :: rest => (classify scope e).join (classifyAll scope rest)

def classifyArms (scope : Scope) : List (Expression × Expression) → ValueClass
  | [] => .unknown
  | (_, value) :: rest => (classify scope value).join (classifyArms scope rest)

end

/-- Whether an expression may stand where a truth value is required. -/
def isLogical (scope : Scope) (e : Expression) : Bool := (classify scope e).isLogical

end GalecAudit
