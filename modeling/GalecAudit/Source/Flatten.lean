import GalecAudit.Source.Expand
import GalecAudit.Source.Unroll

/-!
# Flattening of blocks

From a block as it is written to its flat form. Issues are collected in the order of the text, and an
issue that occurs again, as in the iterations of a loop, is kept once.
-/
namespace GalecAudit.Source

def Dimension.flatten : Dimension → GalecAudit.Dimension
  | .derived => .derived
  | .sized size text =>
    match size.value? [] with
    | some n => if 0 ≤ n then .fixed n.toNat else .symbolic (Text.trim text)
    | none => .symbolic (Text.trim text)

/-- The last bound of each kind, without the blanks in its text. -/
def flattenRange (bounds : List (Bound × String)) : ValueRange :=
  let last (kind : Bound) : Option String :=
    (bounds.reverse.find? fun (k, _) => k == kind).map fun (_, text) => Text.squeeze text
  { min := last .min, max := last .max }

def Declaration.flatten (d : Declaration) (causality : Causality) : GalecAudit.Declaration :=
  { name := d.name
    type := d.type
    causality
    dimensions := d.dimensions.map Dimension.flatten
    range := d.range.map flattenRange
    line := d.line }

/-- A construct that is closed by another name than it was opened with. -/
def endNameIssues (kind opened : String) (closed : EndName) : List Diagnostic :=
  if closed.name = opened then []
  else
    [.errorAt .mismatchedEndName closed.line
      s!"The {kind} {opened} is closed by `end {closed.name}` (line {closed.line})"]

def Record.flatten (r : Record) : RecordType :=
  { name := r.name
    fields := r.fields.map fun (causality, d) => d.flatten (causality.getD .state)
    line := r.line }

/-- The records by name. Of several records with one name the last one counts. -/
def recordsByName (records : List RecordType) : Std.TreeMap String RecordType :=
  records.foldl (fun byName r => byName.insert r.name r) {}

/-- Enters variables one after another. -/
def declareEach (records : List RecordType) (table : VariableTable) :
    List GalecAudit.Declaration → VariableTable × List Diagnostic
  | [] => (table, [])
  | d :: rest =>
    let (next, issues) := table.declareAll records d
    let (last, others) := declareEach records next rest
    (last, issues ++ others)

def Effect.issue? : Effect → Option Diagnostic
  | .issue d => some d
  | _ => none

def Effect.binding? : Effect → Option (Reference × Expression × Nat)
  | .bind target value line => some (target, value, line)
  | _ => none

def Effect.condition? : Effect → Option GalecAudit.Condition
  | .condition c => some c
  | _ => none

def Effect.call? : Effect → Option CallStatement
  | .call s => some s
  | _ => none

def Effect.limit? : Effect → Option Limitation
  | .limit l => some l
  | _ => none

def Effect.raise? : Effect → Option Raise
  | .raise r => some r
  | _ => none

/-- The bindings of a routine, numbered in order. -/
def numbered (bindings : List (Reference × Expression × Nat)) : List Binding :=
  bindings.zipIdx.map fun ((target, value, line), id) => { id, target, value, line }

/-- The flat form of a routine and the issues in it. -/
def Routine.flatten (records : List RecordType) (r : Routine) :
    Except InvalidLiteral (GalecAudit.Routine × List Diagnostic) := do
  let declarations := r.parameters.map (fun (causality, d) => d.flatten causality) ++
    r.locals.map fun d => d.flatten .routineLocal
  let (locals, duplicates) := declareEach records {} declarations
  let effects ← listEffects [] r.body
  let routine : GalecAudit.Routine :=
    { name := r.name
      kind := r.kind
      line := r.line
      signals := r.signals
      locals
      bindings := numbered (effects.filterMap Effect.binding?)
      conditions := effects.filterMap Effect.condition?
      calls := effects.filterMap Effect.call?
      limits := effects.filterMap Effect.limit?
      raised := effects.filterMap Effect.raise? }
  return (routine,
    duplicates ++ effects.filterMap Effect.issue? ++ endNameIssues r.kind.name r.name r.endName)

/-- What the items of a protected section add up to. -/
structure Section where
  table : VariableTable := {}
  signals : List Signal := []
  routines : List GalecAudit.Routine := []
  issues : List Diagnostic := []
deriving Inhabited

def Section.add (records : List RecordType) (s : Section) :
    ProtectedItem → Except InvalidLiteral Section
  | .record _ => .ok s
  | .signals signals => .ok { s with signals := s.signals ++ signals }
  | .routine r => do
    let (routine, issues) ← r.flatten records
    return { s with routines := s.routines ++ [routine], issues := s.issues ++ issues }
  | .variable causality d =>
    let (table, issues) := s.table.declareAll records (d.flatten (causality.getD .state))
    .ok { s with table, issues := s.issues ++ issues }

def ProtectedItem.record? : ProtectedItem → Option Record
  | .record r => some r
  | _ => none

/-- The flat form of a block. Records may be used before they are declared, but only in the protected
section and in routines: where the entities of the block stand, no record is known yet. -/
def Block.flatten (b : Block) : Except InvalidLiteral GalecAudit.Block := do
  let (entities, entityIssues) :=
    declareEach [] {} (b.entities.map fun (causality, d) => d.flatten causality)
  let written := b.protectedItems.filterMap ProtectedItem.record?
  let records := (recordsByName (written.map Record.flatten)).values
  let recordIssues := written.flatMap fun r => endNameIssues "record" r.name r.endName
  let inner ← b.protectedItems.foldlM (Section.add records) {}
  let publicRoutines ← b.publicRoutines.mapM (Routine.flatten records)
  let issues := entityIssues ++ recordIssues ++ inner.issues ++
    publicRoutines.flatMap (·.2) ++ endNameIssues "block" b.name b.endName
  return {
    name := b.name
    line := b.line
    entities
    protectedVariables := inner.table
    records := records.mergeSort fun a c => decide (a.line ≤ c.line)
    signals := inner.signals
    routines := inner.routines ++ publicRoutines.map (·.1)
    issues := issues.eraseDups }

end GalecAudit.Source
