import GalecAudit.Diagnostic
import GalecAudit.Check.ValueClass

/-!
# Checks of assignments

Whether the value of an assignment fits the declared type of its target.
-/
namespace GalecAudit

/-- The target of an assignment with its type, and the line and scope of the assignment. -/
structure Target where
  name : String
  type : PrimitiveType
  line : Nat
  scope : Scope
deriving Inhabited

namespace Target

/-- The beginning of most findings on a target. -/
def preface (t : Target) : String :=
  s!"Expression in line {t.line} contains variables type mismatch: The {t.name} variable is of type {t.type.name}"

def mismatch (t : Target) (message : String) : Diagnostic := .errorAt .typeMismatch t.line message

def unaryMismatch (t : Target) (op : UnaryOperator) : Diagnostic :=
  t.mismatch (t.preface ++ s!" and cannot hold the result of the unary operator `{op.symbol}`")

def constantMismatch (t : Target) (text : String) : Diagnostic :=
  t.mismatch
    s!"The value {text} assigned to the {t.name} variable in the expression (line {t.line}) does not match the declared variable type of {t.type.name}"

def variableMismatch (t : Target) (name : String) (type : PrimitiveType) : Diagnostic :=
  t.mismatch (t.preface ++ s!" and the variable {name} is of type {type.name}, types must match")

def callMismatch (t : Target) (function : String) (type : PrimitiveType) : Diagnostic :=
  t.mismatch
    (t.preface ++ s!" while the function {function} returns {type.name}, types must match")

def operationMismatch (t : Target) : Diagnostic :=
  t.mismatch
    (t.preface ++ s!" while the expression in the right is not of type {t.type.name}, types must match")

def illogicalCondition (t : Target) (condition : Expression) : Diagnostic :=
  .errorAt .illogicalCondition t.line
    s!"The condition `{condition.text}` of the if-expression assigned to {t.name} (line {t.line}) cannot be evaluated as a logical expression"

end Target

/-- Calls that convert their arguments, so that the types of the arguments do not matter. -/
def convertsArguments (function : String) : Bool :=
  function ∈ ["real", "sqrt", "integer", "size"]

mutual

/-- The variables whose values flow into the result of an operation: those in subscripts, in conditions
and in converted arguments do not. -/
def operandVariables : Expression → List String
  | .constant .. => []
  | .reference r => [r.name]
  | .binary left _ right _ => operandVariables left ++ operandVariables right
  | .unary _ operand _ => operandVariables operand
  | .conditional _ value elseIfs otherwise _ =>
    operandVariables value ++ operandVariablesOfArms elseIfs ++ operandVariables otherwise
  | .call name args _ => if convertsArguments name then [] else operandVariablesOfAll args
  | .array elements _ => operandVariablesOfAll elements

def operandVariablesOfAll : List Expression → List String
  | [] => []
  | e :: rest => operandVariables e ++ operandVariablesOfAll rest

def operandVariablesOfArms : List (Expression × Expression) → List String
  | [] => []
  | (_, value) :: rest => operandVariables value ++ operandVariablesOfArms rest

end

/-- A declared variable of another type than the target. -/
def Target.checkVariable (t : Target) (name : String) : List Diagnostic :=
  match t.scope.lookup name with
  | some entry => if entry.type = t.type then [] else [t.variableMismatch name entry.type]
  | none => []

/-- A condition that is no truth value. -/
def Target.checkCondition (t : Target) (condition : Expression) : List Diagnostic :=
  if isLogical t.scope condition then [] else [t.illogicalCondition condition]

/-- An operation as a value: its class has to fit the target, and each variable that flows into a number
has to have the type of the target. A variable is reported once. -/
def Target.checkOperation (t : Target) (value : Expression) : List Diagnostic :=
  if !(classify t.scope value).fits t.type then [t.operationMismatch]
  else if t.type = .boolean then []
  else (operandVariables value).eraseDups.flatMap t.checkVariable

mutual

/-- The findings on a value that is assigned to a target. -/
def Target.check (t : Target) : Expression → List Diagnostic
  | .unary op operand _ =>
    let fits : Bool := match op with
      | .not => t.type == .boolean
      | .negate => t.type != .boolean
    if fits then t.check operand else [t.unaryMismatch op]
  | .constant type text _ => if type = t.type then [] else [t.constantMismatch text]
  | .reference r => t.checkVariable r.name
  | .binary left op right line => t.checkOperation (.binary left op right line)
  | .conditional condition value elseIfs otherwise _ =>
    t.checkCondition condition ++ elseIfs.flatMap (fun arm => t.checkCondition arm.1) ++
      t.check value ++ t.checkArms elseIfs ++ t.check otherwise
  | .call name _ _ =>
    match PrimitiveType.ofBuiltin? name with
    | some type => if type = t.type then [] else [t.callMismatch name type]
    | none => []
  | .array elements _ => t.checkAll elements

def Target.checkAll (t : Target) : List Expression → List Diagnostic
  | [] => []
  | e :: rest => t.check e ++ t.checkAll rest

def Target.checkArms (t : Target) : List (Expression × Expression) → List Diagnostic
  | [] => []
  | (_, value) :: rest => t.check value ++ t.checkArms rest

end

end GalecAudit
