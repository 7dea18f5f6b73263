import GalecAudit.Json.Basic
import GalecAudit.Language.Block

/-!
# JSON forms of blocks

The JSON form of a block and of everything it holds. Empty lists of dimensions, positions and subscript
references are left out, and so are ranges and lines that are not given.
-/
namespace GalecAudit

def PrimitiveType.toJson (t : PrimitiveType) : Json := .string t.name

def ValueRange.toJson (range : ValueRange) : Json :=
  .object [("min", .orNull .string range.min), ("max", .orNull .string range.max)]

def Entry.toJson (entry : Entry) : Json :=
  .object <|
    [("ty", entry.type.toJson), ("causality", .string entry.causality.text),
     ("line", .ofNat entry.line)] ++
    Json.listMember "dimensions" .nats entry.dimensions ++
    Json.member? "element_index" .nats entry.elementIndex ++
    Json.member? "range" ValueRange.toJson entry.range

def VariableTable.toJson (table : VariableTable) : Json :=
  .object (table.toList.map fun (name, entry) => (name, entry.toJson))

def Diagnostic.toJson (d : Diagnostic) : Json :=
  .object <|
    [("severity", .string d.severity.name), ("code", .string d.code.name),
     ("message", .string d.message)] ++
    Json.member? "line" .ofNat d.line ++
    Json.member? "source" .string d.source

mutual

def Reference.members : Reference → List (String × Json)
  | ⟨name, isState, line, indices⟩ =>
    [("name", .string name), ("state", .bool isState), ("line", .ofNat line)] ++
    Json.listMember "index_references" .array (referenceObjects indices)

def referenceObjects : List Reference → List Json
  | [] => []
  | r :: rest => .object r.members :: referenceObjects rest

end

def Reference.toJson (r : Reference) : Json := .object r.members

mutual

def Expression.toJson : Expression → Json
  | .constant type text line =>
    .object [("kind", .string "constant"), ("ty", type.toJson), ("text", .string text),
      ("line", .ofNat line)]
  | .reference r => .object (("kind", .string "reference") :: r.members)
  | .binary left op right line =>
    .object [("kind", .string "binary"), ("left", left.toJson), ("op", .string op.name),
      ("right", right.toJson), ("line", .ofNat line)]
  | .unary op operand line =>
    .object [("kind", .string "unary"), ("op", .string op.name), ("operand", operand.toJson),
      ("line", .ofNat line)]
  | .conditional condition value elseIfs otherwise line =>
    .object [("kind", .string "if"), ("conditions", .array [condition.toJson]),
      ("thens", .array [value.toJson]), ("else_ifs", .array (Expression.armObjects elseIfs)),
      ("otherwise", otherwise.toJson), ("line", .ofNat line)]
  | .call name args line =>
    .object [("kind", .string "call"), ("name", .string name),
      ("args", .array (Expression.listObjects args)), ("line", .ofNat line)]
  | .array elements line =>
    .object [("kind", .string "array"), ("elements", .array (Expression.listObjects elements)),
      ("line", .ofNat line)]

def Expression.listObjects : List Expression → List Json
  | [] => []
  | e :: rest => e.toJson :: Expression.listObjects rest

def Expression.armObjects : List (Expression × Expression) → List Json
  | [] => []
  | (condition, value) :: rest =>
    .object [("condition", condition.toJson), ("then", value.toJson)] :: Expression.armObjects rest

end

def Call.toJson (call : Call) : Json :=
  .object [("name", .string call.name), ("args", .array (call.args.map Expression.toJson)),
    ("line", .ofNat call.line)]

def Binding.toJson (b : Binding) : Json :=
  .object [("id", .ofNat b.id), ("target", b.target.toJson), ("value", b.value.toJson),
    ("line", .ofNat b.line)]

def Condition.toJson : Condition → Json
  | .expression e line =>
    .object [("kind", .string "expression"), ("expression", e.toJson), ("line", .ofNat line)]
  | .signal name negated members fallback line =>
    .object [("kind", .string "signal"), ("signal", .orNull .string name),
      ("negated", .bool negated), ("members", .strings members),
      ("fallback", .orNull Expression.toJson fallback), ("line", .ofNat line)]

def CallStatement.toJson (s : CallStatement) : Json :=
  .object [("targets", .array (s.targets.map Reference.toJson)), ("call", s.call.toJson),
    ("line", .ofNat s.line)]

def Limitation.toJson (l : Limitation) : Json :=
  .object [("targets", .array (l.targets.map Reference.toJson)), ("line", .ofNat l.line)]

def Raise.toJson (r : Raise) : Json :=
  .object [("signals", .strings r.signals), ("line", .ofNat r.line)]

def Routine.toJson (r : Routine) : Json :=
  .object [("name", .string r.name), ("kind", .string r.kind.name), ("line", .ofNat r.line),
    ("signals", .strings r.signals), ("locals", r.locals.toJson),
    ("bindings", .array (r.bindings.map Binding.toJson)),
    ("conditions", .array (r.conditions.map Condition.toJson)),
    ("calls", .array (r.calls.map CallStatement.toJson)),
    ("limits", .array (r.limits.map Limitation.toJson)),
    ("raised_signals", .array (r.raised.map Raise.toJson))]

def DeclaredType.toJson : DeclaredType → Json
  | .primitive type => .object [("kind", .string "primitive"), ("name", type.toJson)]
  | .record name => .object [("kind", .string "record"), ("name", .string name)]

def Dimension.toJson : Dimension → Json
  | .fixed size => .object [("fixed", .ofNat size)]
  | .derived => .string "derived"
  | .symbolic text => .object [("symbolic", .string text)]

def Declaration.toJson (d : Declaration) : Json :=
  .object [("name", .string d.name), ("ty", d.type.toJson), ("causality", .string d.causality.text),
    ("dimensions", .array (d.dimensions.map Dimension.toJson)),
    ("range", .orNull ValueRange.toJson d.range), ("line", .ofNat d.line)]

def RecordType.toJson (r : RecordType) : Json :=
  .object [("name", .string r.name), ("fields", .array (r.fields.map Declaration.toJson)),
    ("line", .ofNat r.line)]

def Signal.toJson (s : Signal) : Json :=
  .object [("name", .string s.name), ("line", .ofNat s.line)]

def Block.toJson (b : Block) : Json :=
  .object [("name", .string b.name), ("line", .ofNat b.line),
    ("block_variables", b.entities.toJson), ("protected_variables", b.protectedVariables.toJson),
    ("records", .array (b.records.map RecordType.toJson)),
    ("signals", .array (b.signals.map Signal.toJson)),
    ("functions", .array (b.routines.map Routine.toJson)),
    ("issues", .array (b.issues.map Diagnostic.toJson))]

end GalecAudit
