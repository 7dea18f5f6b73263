import GalecAudit.Diagnostic
import GalecAudit.Source.Value

/-!
# Resolution of expressions

Chains become binary operations, iterators become their values and accesses become references. The only
expressions that cannot be resolved are those with an integer literal that is no 64-bit integer.
-/
namespace GalecAudit.Source

/-- An integer literal out of range. -/
structure InvalidLiteral where
  text : String
  line : Nat
deriving DecidableEq, Repr, Inhabited

def InvalidLiteral.message (e : InvalidLiteral) : String :=
  s!"invalid literal `{e.text}` on line {e.line}"

/-- The reference that resolved segments make. -/
def joined (isState : Bool) (parts : List (String × List Reference)) (line : Nat) : Reference :=
  { name := ".".intercalate (parts.map (·.1))
    isState
    line
    indexReferences := parts.flatMap (·.2) }

mutual

def Expr.resolve (scope : LoopScope) : Expr → Except InvalidLiteral Expression
  | .chain first rest line => do
    let left ← first.resolve scope
    resolveChain scope line left rest
  | .unary op operand line => do
    let operand ← operand.resolve scope
    return .unary op operand line
  | .conditional condition value elseIfs otherwise line => do
    let condition ← condition.resolve scope
    let value ← value.resolve scope
    let elseIfs ← resolveArms scope elseIfs
    let otherwise ← otherwise.resolve scope
    return .conditional condition value elseIfs otherwise line
  | .paren inner _ => inner.resolve scope
  | .array elements _ line => do
    let elements ← resolveAll scope elements
    return .array elements line
  | .size ⟨isState, segments, accessLine⟩ dimension line => do
    let parts ← resolveSegments scope segments
    let dimension ← dimension.resolve scope
    return .call "size" [.reference (joined isState parts accessLine), dimension] line
  | .call ⟨name, args, line⟩ => do
    let args ← resolveAll scope args
    return .call name args line
  | .literal type text line =>
    if type = .integer ∧ word? (decimal text) = none then .error ⟨text, line⟩
    else .ok (.constant type text line)
  | .access ⟨isState, segments, line⟩ =>
    match Access.iteratorValue? scope ⟨isState, segments, line⟩ with
    | some v => .ok (.constant .integer (toString v) line)
    | none => do
      let parts ← resolveSegments scope segments
      return .reference (joined isState parts line)

/-- Folds a chain from the left. -/
def resolveChain (scope : LoopScope) (line : Nat) (left : Expression) :
    List (BinaryOperator × Expr) → Except InvalidLiteral Expression
  | [] => .ok left
  | (op, operand) :: rest => do
    let right ← operand.resolve scope
    resolveChain scope line (.binary left op right line) rest

def resolveAll (scope : LoopScope) : List Expr → Except InvalidLiteral (List Expression)
  | [] => .ok []
  | e :: rest => do
    let first ← e.resolve scope
    let others ← resolveAll scope rest
    return first :: others

def resolveArms (scope : LoopScope) :
    List (Expr × Expr) → Except InvalidLiteral (List (Expression × Expression))
  | [] => .ok []
  | (condition, value) :: rest => do
    let condition ← condition.resolve scope
    let value ← value.resolve scope
    let others ← resolveArms scope rest
    return (condition, value) :: others

/-- The text of each segment and the references in its subscripts. Subscripts that are all constant
become part of the text. -/
def resolveSegments (scope : LoopScope) :
    List (Segment Expr) → Except InvalidLiteral (List (String × List Reference))
  | [] => .ok []
  | ⟨name, subscripts⟩ :: rest => do
    let first ←
      match values? scope subscripts with
      | some [] => pure (name, [])
      | some values => pure (indexedName name values, [])
      | none => do
        let indices ← resolveAll scope subscripts
        pure (name, Expression.listReferences indices)
    let others ← resolveSegments scope rest
    return first :: others

end

def Access.resolve (scope : LoopScope) (access : Access Expr) : Except InvalidLiteral Reference := do
  let parts ← resolveSegments scope access.segments
  return joined access.isState parts access.line

def Call.resolve (scope : LoopScope) (call : Call Expr) : Except InvalidLiteral GalecAudit.Call := do
  let args ← resolveAll scope call.args
  return ⟨call.name, args, call.line⟩

/-- A warning about an array constructor inside an expression. -/
def arrayNotice (text : String) (line : Nat) : Diagnostic :=
  .warningAt .unsupportedConstruct line
    s!"The array constructor `{text}` (line {line}) is only checked element by element"

mutual

/-- The warnings about the array constructors of an expression, from left to right. -/
def Expr.notices : Expr → List Diagnostic
  | .chain first rest _ => first.notices ++ chainNotices rest
  | .unary _ operand _ => operand.notices
  | .conditional condition value elseIfs otherwise _ =>
    condition.notices ++ value.notices ++ armNotices elseIfs ++ otherwise.notices
  | .paren inner _ => inner.notices
  | .array elements text line => arrayNotice text line :: listNotices elements
  | .size ⟨_, segments, _⟩ dimension _ => segmentNotices segments ++ dimension.notices
  | .call ⟨_, args, _⟩ => listNotices args
  | .literal .. => []
  | .access ⟨_, segments, _⟩ => segmentNotices segments

def chainNotices : List (BinaryOperator × Expr) → List Diagnostic
  | [] => []
  | (_, operand) :: rest => operand.notices ++ chainNotices rest

def listNotices : List Expr → List Diagnostic
  | [] => []
  | e :: rest => e.notices ++ listNotices rest

def armNotices : List (Expr × Expr) → List Diagnostic
  | [] => []
  | (condition, value) :: rest => condition.notices ++ value.notices ++ armNotices rest

def segmentNotices : List (Segment Expr) → List Diagnostic
  | [] => []
  | ⟨_, subscripts⟩ :: rest => listNotices subscripts ++ segmentNotices rest

end

end GalecAudit.Source
