import GalecAudit.Language.Expression
import GalecAudit.Variable.Table

/-!
# Routines

The flat form of a function or method. Loops are unrolled and array constructors split, so that what is
left is a list of assignments in the order of the statements, with the conditions, calls, limitations
and raised signals beside it.
-/
namespace GalecAudit

/-- What kind of expression is assigned, seen through prefix operators. -/
inductive BindingKind where
  | constant
  | reference
  | binaryOperation
  | ifExpression
  | functionCall
  | arrayConstructor
deriving DecidableEq, Repr, Inhabited

def BindingKind.name : BindingKind → String
  | constant => "constant"
  | reference => "reference"
  | binaryOperation => "binary_operation"
  | ifExpression => "if_expression"
  | functionCall => "function_call"
  | arrayConstructor => "array_constructor"

def Expression.kind : Expression → BindingKind
  | constant .. => .constant
  | reference _ => .reference
  | binary .. => .binaryOperation
  | unary _ operand _ => operand.kind
  | conditional .. => .ifExpression
  | call .. => .functionCall
  | array .. => .arrayConstructor

/-- One assignment. Its number is its place among the assignments of the routine, from zero. -/
structure Binding where
  id : Nat
  target : Reference
  value : Expression
  line : Nat
deriving Repr, Inhabited

inductive Condition where
  | expression (expression : Expression) (line : Nat)
  | signal (name : Option String) (negated : Bool) (members : List String)
      (fallback : Option Expression) (line : Nat)
deriving Repr, Inhabited

/-- A call as a statement, with the variables that take its results. -/
structure CallStatement where
  targets : List Reference
  call : Call
  line : Nat
deriving Repr, Inhabited

structure Limitation where
  targets : List Reference
  line : Nat
deriving Repr, Inhabited

/-- Signals that a statement raises. -/
structure Raise where
  signals : List String
  line : Nat
deriving Repr, Inhabited

inductive RoutineKind where
  | function
  | method
deriving DecidableEq, Repr, Inhabited

def RoutineKind.name : RoutineKind → String
  | function => "function"
  | method => "method"

structure Routine where
  name : String
  kind : RoutineKind
  line : Nat
  /-- The signals that the routine may raise to its caller. -/
  signals : List String
  /-- Parameters and protected variables. -/
  locals : VariableTable
  bindings : List Binding
  conditions : List Condition
  calls : List CallStatement
  limits : List Limitation
  raised : List Raise
deriving Inhabited

end GalecAudit
