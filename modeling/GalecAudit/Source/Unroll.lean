import GalecAudit.Source.Resolve

/-!
# Unrolling of statements

The effects of a statement in the order in which it has them: loops are unrolled with their iterators
replaced by their values, and assigned array constructors are split into their elements.
-/
namespace GalecAudit.Source

/-- What one statement adds to its routine. -/
inductive Effect where
  | issue (diagnostic : Diagnostic)
  | bind (target : Reference) (value : Expression) (line : Nat)
  | condition (condition : GalecAudit.Condition)
  | call (statement : CallStatement)
  | limit (limitation : Limitation)
  | raise (raise : Raise)
deriving Repr, Inhabited

def Access.notices (access : Access Expr) : List Diagnostic := segmentNotices access.segments

def Call.notices (call : Call Expr) : List Diagnostic := listNotices call.args

/-- The elements of the array constructor that an expression consists of, seen through parentheses. -/
def Expr.elements? : Expr → Option (List Expr)
  | .array elements _ _ => some elements
  | .paren inner _ => inner.elements?
  | .chain first [] _ => first.elements?
  | _ => none

def deepConstructorIssue (target : String) (line : Nat) : Diagnostic :=
  .warningAt .unsupportedConstruct line
    s!"The array constructor assigned to {target} (line {line}) is nested deeper than two levels"

/-- The effects of the elements of a constructor, with their positions from one, in a row. -/
def effectsByPosition (elements : List Expr)
    (effects : Nat → Expr → Except InvalidLiteral (List Effect)) :
    Except InvalidLiteral (List Effect) := do
  let parts ← (elements.zipIdx 1).mapM fun (element, position) => effects position element
  return parts.flatten

/-- The effects of assigning an element that is no constructor itself. -/
def bindElement (scope : LoopScope) (target : Reference) (element : Expr) :
    Except InvalidLiteral (List Effect) := do
  let value ← element.resolve scope
  return element.notices.map .issue ++ [.bind target value element.line]

/-- The effects of assigning the elements of a constructor to the elements of its target. Constructors
may be nested in it to the given depth. -/
def bindElements (scope : LoopScope) :
    Nat → Reference → List Expr → Except InvalidLiteral (List Effect)
  | 0, target, elements => effectsByPosition elements fun position element =>
    match element.elements? with
    | some _ => .ok [.issue (deepConstructorIssue target.name element.line)]
    | none => bindElement scope (target.element [position]) element
  | depth + 1, target, elements => effectsByPosition elements fun position element =>
    match element.elements? with
    | some nested => bindElements scope depth (target.element [position]) nested
    | none => bindElement scope (target.element [position]) element

/-- A 64-bit integer on 128 bits, where the distance of any two of them has room. -/
def widen (v : Int) : BitVec 128 := BitVec.ofInt 128 v

/-- How often a loop runs, computed with signed 128-bit integers. The division rounds towards zero. -/
def iterationCount (start step stop : Int) : Int :=
  if (0 < step ∧ start ≤ stop) ∨ (step < 0 ∧ stop ≤ start) then
    ((widen stop - widen start).sdiv (widen step) + 1).toInt
  else 0

/-- The sum of two 64-bit integers, or the bound that it exceeds. -/
def saturatingAdd (a b : Int) : Int :=
  max (-9223372036854775808) (min (a + b) 9223372036854775807)

/-- The values of the iterator in a number of iterations, where the first value is given. -/
def iterationValues (step : Int) : Nat → Int → List Int
  | 0, _ => []
  | n + 1, value => value :: iterationValues step n (saturatingAdd value step)

/-- Loops that run more often are not unrolled. -/
def maxIterations : Nat := 100000

/-- The values of the bounds, when all of them are constant: start, step and stop. -/
def Bounds.values? (scope : LoopScope) (bounds : Bounds) : Option (Int × Int × Int) := do
  let start ← bounds.start.value? scope
  let step ←
    match bounds.step with
    | some step => step.value? scope
    | none => some 1
  let stop ← bounds.stop.value? scope
  return (start, step, stop)

def loopIssue (line : Nat) (message : String) : Effect :=
  .issue (.warningAt .unsupportedConstruct line message)

/-- The scope of one iteration. -/
def LoopScope.enter (scope : LoopScope) (iterator : Option String) (value : Int) : LoopScope :=
  match iterator with
  | some name => (name, value) :: scope
  | none => scope

def Condition.effects (scope : LoopScope) : Condition → Except InvalidLiteral (List Effect)
  | .expression e => do
    let value ← e.resolve scope
    return e.notices.map .issue ++ [.condition (.expression value e.line)]
  | .signal name negated members (some e) line => do
    let value ← e.resolve scope
    return e.notices.map .issue ++ [.condition (.signal name negated members (some value) line)]
  | .signal name negated members none line =>
    .ok [.condition (.signal name negated members none line)]

mutual

def Statement.effects (scope : LoopScope) : Statement → Except InvalidLiteral (List Effect)
  | .assign target value line => do
    let reference ← target.resolve scope
    let bound ←
      match value.elements? with
      | some elements => bindElements scope 1 reference elements
      | none => do
        let resolved ← value.resolve scope
        pure (value.notices.map Effect.issue ++ [.bind reference resolved line])
    return target.notices.map .issue ++ bound
  | .assignMany targets call line => do
    let references ← targets.mapM (Access.resolve scope)
    let resolved ← call.resolve scope
    return (targets.flatMap Access.notices ++ call.notices).map .issue ++
      [.call ⟨references, resolved, line⟩]
  | .call call line => do
    let resolved ← call.resolve scope
    return call.notices.map .issue ++ [.call ⟨[], resolved, line⟩]
  | .branch arms otherwise => do
    let first ← armEffects scope arms
    let second ← listEffects scope otherwise
    return first ++ second
  | .loop iterator bounds header body line =>
    match bounds.values? scope with
    | none =>
      let text := Text.trim header
      .ok [loopIssue line
        s!"The bounds of the for loop `{text}` (line {line}) are not constant integer expressions"]
    | some (start, step, stop) =>
      let count := iterationCount start step stop
      if step = 0 then .ok [loopIssue line s!"The for loop on line {line} has a zero step"]
      else if (maxIterations : Int) < count then
        .ok [loopIssue line
          s!"The for loop on line {line} runs {count} iterations, more than {maxIterations}"]
      else do
        let parts ← (iterationValues step count.toNat start).mapM fun value =>
          listEffects (scope.enter iterator value) body
        return parts.flatten
  | .signal names line => .ok [.raise ⟨names, line⟩]
  | .limit targets line => do
    let references ← targets.mapM (Access.resolve scope)
    return (targets.flatMap Access.notices).map .issue ++ [.limit ⟨references, line⟩]

def listEffects (scope : LoopScope) : List Statement → Except InvalidLiteral (List Effect)
  | [] => .ok []
  | s :: rest => do
    let first ← s.effects scope
    let others ← listEffects scope rest
    return first ++ others

def armEffects (scope : LoopScope) :
    List (Condition × List Statement) → Except InvalidLiteral (List Effect)
  | [] => .ok []
  | (condition, body) :: rest => do
    let first ← condition.effects scope
    let second ← listEffects scope body
    let others ← armEffects scope rest
    return first ++ second ++ others

end

end GalecAudit.Source
