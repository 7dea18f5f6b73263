import GalecAudit.Language.Block

/-!
# Source trees

The constructs of the checked language as they are written. Subscripts, loop bounds and sizes are still
expressions, loops still have bodies, and each node carries the line of its first character.
-/
namespace GalecAudit.Source

/-- A name with the subscripts that follow it, if any. -/
structure Segment (ε : Type) where
  name : String
  subscripts : List ε
deriving Repr, Inhabited

/-- A variable access: segments between dots, with `self` before them or not. -/
structure Access (ε : Type) where
  isState : Bool
  segments : List (Segment ε)
  line : Nat
deriving Repr, Inhabited

/-- A call of a function. -/
structure Call (ε : Type) where
  name : String
  args : List ε
  line : Nat
deriving Repr, Inhabited

inductive Expr where
  /-- Operands of one precedence level with the operators between them. A single operand is no chain. -/
  | chain (first : Expr) (rest : List (BinaryOperator × Expr)) (line : Nat)
  | unary (op : UnaryOperator) (operand : Expr) (line : Nat)
  | conditional (condition value : Expr) (elseIfs : List (Expr × Expr)) (otherwise : Expr) (line : Nat)
  | paren (inner : Expr) (line : Nat)
  /-- An array constructor with its text. -/
  | array (elements : List Expr) (text : String) (line : Nat)
  /-- The size of an array in one of its dimensions. -/
  | size (array : Access Expr) (dimension : Expr) (line : Nat)
  | call (call : Call Expr)
  | literal (type : PrimitiveType) (text : String) (line : Nat)
  | access (access : Access Expr)
deriving Repr, Inhabited

/-- The line on which an expression starts. -/
def Expr.line : Expr → Nat
  | chain _ _ line | unary _ _ line | conditional _ _ _ _ line | paren _ line | array _ _ line
  | size _ _ line | literal _ _ line => line
  | call c => c.line
  | access a => a.line

/-- The condition of an `if` statement. -/
inductive Condition where
  | expression (expr : Expr)
  /-- A test of signals: of one signal, of some members, or a logical expression. -/
  | signal (name : Option String) (negated : Bool) (members : List String) (fallback : Option Expr)
      (line : Nat)
deriving Repr, Inhabited

/-- The values of a loop: from `start` to `stop`, one by one unless a step is given. -/
structure Bounds where
  start : Expr
  step : Option Expr
  stop : Expr
deriving Repr, Inhabited

inductive Statement where
  | assign (target : Access Expr) (value : Expr) (line : Nat)
  | assignMany (targets : List (Access Expr)) (call : Call Expr) (line : Nat)
  | call (call : Call Expr) (line : Nat)
  /-- An `if` statement: its conditions with their statements, and those of the `else` part. -/
  | branch (arms : List (Condition × List Statement)) (otherwise : List Statement)
  /-- A loop with the text of its header. -/
  | loop (iterator : Option String) (bounds : Bounds) (header : String) (body : List Statement)
      (line : Nat)
  | signal (names : List String) (line : Nat)
  /-- A limitation of the given variables. The word `self` in the list adds none. -/
  | limit (targets : List (Access Expr)) (line : Nat)
deriving Repr, Inhabited

inductive Dimension where
  /-- A size that the context gives. -/
  | derived
  /-- A size that is written, with its text. -/
  | sized (size : Expr) (text : String)
deriving Repr, Inhabited

inductive Bound where
  | min
  | max
deriving DecidableEq, Repr, Inhabited

structure Declaration where
  type : DeclaredType
  name : String
  dimensions : List Dimension
  /-- The bounds of the range specification, if there is one, with the texts of their numbers. -/
  range : Option (List (Bound × String))
  line : Nat
deriving Repr, Inhabited

/-- A name that closes a construct, and its line. -/
structure EndName where
  name : String
  line : Nat
deriving DecidableEq, Repr, Inhabited

structure Record where
  name : String
  fields : List (Option Causality × Declaration)
  endName : EndName
  line : Nat
deriving Repr, Inhabited

structure Routine where
  kind : RoutineKind
  name : String
  signals : List String
  parameters : List (Causality × Declaration)
  locals : List Declaration
  body : List Statement
  endName : EndName
  line : Nat
deriving Repr, Inhabited

inductive ProtectedItem where
  | record (record : Record)
  | signals (signals : List Signal)
  | routine (routine : Routine)
  | variable (causality : Option Causality) (declaration : Declaration)
deriving Repr, Inhabited

structure Block where
  name : String
  entities : List (Causality × Declaration)
  protectedItems : List ProtectedItem
  publicRoutines : List Routine
  endName : EndName
  line : Nat
deriving Repr, Inhabited

end GalecAudit.Source
