import GalecAudit.Source.Tree
import GalecAudit.Text.Digits

/-!
# Constant values

The value of an expression that is an integer known from its text and from the iterators of the loops
around it. All intermediate values have to be 64-bit integers; an expression with one that is not has
no value.
-/
namespace GalecAudit.Source

/-- The iterators of the loops around an expression with their values, innermost first. -/
abbrev LoopScope := List (String × Int)

/-- The 64-bit integers. -/
def isWord (v : Int) : Bool :=
  decide (-9223372036854775808 ≤ v ∧ v ≤ 9223372036854775807)

def word? (v : Int) : Option Int := if isWord v then some v else none

/-- The number that a text of decimal digits stands for. -/
def decimal (text : String) : Nat := Text.decimalValue text.toList

/-- The name of an access that is a single name without subscripts. -/
def Access.bareName? : Access Expr → Option String
  | ⟨false, [⟨name, []⟩], _⟩ => some name
  | _ => none

/-- The value of an access that is the iterator of a loop. -/
def Access.iteratorValue? (scope : LoopScope) (access : Access Expr) : Option Int :=
  access.bareName?.bind fun name => List.lookup name scope

/-- The operations that constant expressions may use. -/
def applyConstant : BinaryOperator → Int → Int → Option Int
  | .add, a, b => word? (a + b)
  | .subtract, a, b => word? (a - b)
  | .multiply, a, b => word? (a * b)
  | _, _, _ => none

mutual

/-- The value of a constant expression. -/
def Expr.value? (scope : LoopScope) : Expr → Option Int
  | .chain first rest _ =>
    match first.value? scope with
    | some v => chainValue? scope v rest
    | none => none
  | .unary .negate operand _ =>
    match operand.value? scope with
    | some v => word? (-v)
    | none => none
  | .paren inner _ => inner.value? scope
  | .literal .integer text _ => word? (decimal text)
  | .access access => access.iteratorValue? scope
  | _ => none

def chainValue? (scope : LoopScope) (left : Int) : List (BinaryOperator × Expr) → Option Int
  | [] => some left
  | (op, operand) :: rest =>
    match operand.value? scope with
    | some right =>
      match applyConstant op left right with
      | some v => chainValue? scope v rest
      | none => none
    | none => none

end

/-- The values of expressions that are all constant. -/
def values? (scope : LoopScope) (exprs : List Expr) : Option (List Int) :=
  exprs.mapM (Expr.value? scope)

end GalecAudit.Source
