import GalecAudit.Check.Assignment
import GalecAudit.Language.Block

/-!
# Checks of routines

A routine is checked in four passes, all of which always run: every variable is declared, every value
fits its target, every condition is logical, and every signal is declared.
-/
namespace GalecAudit

/-- The scope of a routine: its own variables, those of the block and last those of the manifest. -/
def Scope.ofRoutine (block : Block) (routine : Routine) (manifest : VariableTable) : Scope :=
  ⟨[routine.locals, block.protectedVariables, block.entities, manifest]⟩

def Condition.references : Condition → List Reference
  | .expression e _ => e.references
  | .signal _ _ _ (some e) _ => e.references
  | .signal _ _ _ none _ => []

/-- All variable accesses of a routine with those in their subscripts: bindings, conditions, calls and
limitations in this order. -/
def Routine.references (routine : Routine) : List Reference :=
  (routine.bindings.flatMap fun b => b.target.withIndices ++ b.value.references) ++
  routine.conditions.flatMap Condition.references ++
  (routine.calls.flatMap fun s =>
    Reference.allWithIndices s.targets ++ Expression.listReferences s.call.args) ++
  routine.limits.flatMap fun l => Reference.allWithIndices l.targets

def undeclaredVariable (name : String) (line : Nat) : Diagnostic :=
  .errorAt .undeclaredVariable line
    s!"The variable {name} which is contained in the expressions (line {line}) is not declared anywhere in the Algorithm code block"

/-- One finding for each undeclared variable on each line. -/
def checkDeclarations (scope : Scope) (routine : Routine) : List Diagnostic :=
  let undeclared := routine.references.filter fun r => (scope.lookup r.name).isNone
  (undeclared.map fun r => (r.name, r.line)).eraseDups.map fun (name, line) =>
    undeclaredVariable name line

/-- The findings on the value of a binding. An undeclared target is reported elsewhere. -/
def checkBinding (scope : Scope) (b : Binding) : List Diagnostic :=
  match scope.lookup b.target.name with
  | some entry =>
    Target.check { name := b.target.name, type := entry.type, line := b.line, scope } b.value
  | none => []

def illogicalStatement (condition : Expression) (line : Nat) : Diagnostic :=
  .errorAt .illogicalCondition line
    s!"The condition `{condition.text}` in line {line} cannot be evaluated as a logical expression"

/-- The logical expression of a condition, if it has one, and its line. -/
def Condition.logical? : Condition → Option (Expression × Nat)
  | .expression e line => some (e, line)
  | .signal _ _ _ fallback line => fallback.map fun e => (e, line)

def checkCondition (scope : Scope) (condition : Condition) : List Diagnostic :=
  match condition.logical? with
  | some (e, line) => if isLogical scope e then [] else [illogicalStatement e line]
  | none => []

def undeclaredSignal (name : String) (line : Nat) : Diagnostic :=
  .errorAt .undeclaredSignal line
    s!"The signal {name} (line {line}) is not declared anywhere in the Algorithm code block"

/-- The signals that a condition tests, with its line. -/
def Condition.signals : Condition → List (String × Nat)
  | .expression .. => []
  | .signal name _ members _ line => (name.toList ++ members).map fun s => (s, line)

/-- The signals that a routine raises and then those that it tests. -/
def Routine.usedSignals (routine : Routine) : List (String × Nat) :=
  (routine.raised.flatMap fun r => r.signals.map fun s => (s, r.line)) ++
    routine.conditions.flatMap Condition.signals

/-- One finding for each use of an undeclared signal. -/
def checkSignals (block : Block) (routine : Routine) : List Diagnostic :=
  let declared := block.signals.map Signal.name ++ routine.signals
  (routine.usedSignals.filter fun (name, _) => !declared.contains name).map fun (name, line) =>
    undeclaredSignal name line

def checkRoutine (block : Block) (manifest : VariableTable) (routine : Routine) :
    List Diagnostic :=
  let scope := Scope.ofRoutine block routine manifest
  checkDeclarations scope routine ++ routine.bindings.flatMap (checkBinding scope) ++
    routine.conditions.flatMap (checkCondition scope) ++ checkSignals block routine

/-- The findings on all routines of a block. -/
def checkBlock (block : Block) (manifest : VariableTable) : List Diagnostic :=
  block.routines.flatMap (checkRoutine block manifest)

end GalecAudit
