/-!
# Operators

The thirteen binary operators and the two prefix operators of expressions.
-/
namespace GalecAudit

inductive BinaryOperator where
  | or
  | and
  | equal
  | notEqual
  | less
  | lessEqual
  | greater
  | greaterEqual
  | add
  | subtract
  | multiply
  | divide
  | power
deriving DecidableEq, Repr, Inhabited

namespace BinaryOperator

def all : List BinaryOperator :=
  [.or, .and, .equal, .notEqual, .less, .lessEqual, .greater, .greaterEqual, .add, .subtract,
   .multiply, .divide, .power]

def symbol : BinaryOperator → String
  | .or => "or"
  | .and => "and"
  | .equal => "=="
  | .notEqual => "<>"
  | .less => "<"
  | .lessEqual => "<="
  | .greater => ">"
  | .greaterEqual => ">="
  | .add => "+"
  | .subtract => "-"
  | .multiply => "*"
  | .divide => "/"
  | .power => "^"

/-- The name of an operator in reports. -/
def name : BinaryOperator → String
  | .or => "or"
  | .and => "and"
  | .equal => "equal"
  | .notEqual => "not_equal"
  | .less => "less"
  | .lessEqual => "less_equal"
  | .greater => "greater"
  | .greaterEqual => "greater_equal"
  | .add => "add"
  | .subtract => "subtract"
  | .multiply => "multiply"
  | .divide => "divide"
  | .power => "power"

def ofSymbol? (symbol : String) : Option BinaryOperator :=
  all.find? fun op => op.symbol == symbol

theorem mem_all (op : BinaryOperator) : op ∈ all := by cases op <;> decide

theorem ofSymbol?_symbol (op : BinaryOperator) : ofSymbol? op.symbol = some op := by
  cases op <;> rfl

def isLogical : BinaryOperator → Bool
  | .or | .and => true
  | _ => false

/-- Comparisons take numbers and give a truth value. -/
def isComparison : BinaryOperator → Bool
  | .equal | .notEqual | .less | .lessEqual | .greater | .greaterEqual => true
  | _ => false

end BinaryOperator

inductive UnaryOperator where
  | negate
  | not
deriving DecidableEq, Repr, Inhabited

namespace UnaryOperator

def symbol : UnaryOperator → String
  | .negate => "-"
  | .not => "not"

/-- The name of an operator in reports. -/
def name : UnaryOperator → String
  | .negate => "negate"
  | .not => "not"

/-- What is written before the operand. -/
def lead : UnaryOperator → String
  | .negate => "-"
  | .not => "not "

def ofSymbol? : String → Option UnaryOperator
  | "-" => some .negate
  | "not" => some .not
  | _ => none

end UnaryOperator
end GalecAudit
