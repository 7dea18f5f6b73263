import GalecAudit.Language.Block

/-!
# Expansion of declarations

A variable of a record type stands for the primitive fields below it. A record that contains itself is
cut off where it would be opened a second time on the same path.
-/
namespace GalecAudit

/-- What a declaration adds to a table, in order. -/
inductive Leaf where
  | entry (key : String) (entry : Entry)
  | issue (diagnostic : Diagnostic)
deriving DecidableEq, Repr, Inhabited

def selfContainedIssue (record : String) (line : Nat) : Diagnostic :=
  .warningAt .unsupportedConstruct line s!"The record {record} contains itself (line {line})"

def unknownRecordIssue (record key : String) (line : Nat) : Diagnostic :=
  .errorAt .undeclaredVariable line
    s!"The record type {record} of variable {key} (line {line}) is not declared anywhere in the Algorithm code block"

def duplicateIssue (key : String) (line previous : Nat) : Diagnostic :=
  .warningAt .duplicateDeclaration line
    s!"The variable {key} (line {line}) is already declared on line {previous}"

def findRecord? (records : List RecordType) (name : String) : Option RecordType :=
  records.find? fun record => record.name == name

/-- How many records are not yet open. -/
def unopened (records : List RecordType) (opened : List String) : Nat :=
  records.countP fun record => !opened.contains record.name

/-- A stricter test that rejects a member counts less. -/
theorem countP_lt_countP {α : Type} {p q : α → Bool} {l : List α} {x : α} (hx : x ∈ l)
    (hi : ∀ y, q y = true → p y = true) (hp : p x = true) (hq : q x = false) :
    l.countP q < l.countP p := by
  induction l with
  | nil => cases hx
  | cons y rest ih =>
    have hle : rest.countP q ≤ rest.countP p := List.countP_mono_left fun z _ => hi z
    rw [List.countP_cons, List.countP_cons]
    rcases List.mem_cons.1 hx with rfl | hr
    · simp only [hp, hq]
      simp
      omega
    · have hlt := ih hr
      by_cases hy : q y = true
      · simp only [hy, hi y hy]
        omega
      · simp only [hy]
        split
        · simp at *
        · simp at *
          omega

theorem unopened_cons_lt {records : List RecordType} {opened : List String} {name : String}
    {record : RecordType} (hn : ¬ opened.contains name = true)
    (hf : findRecord? records name = some record) :
    unopened records (name :: opened) < unopened records opened := by
  have hm : record ∈ records := List.mem_of_find?_eq_some hf
  have he : record.name = name := by
    have h := List.find?_some hf
    simpa using h
  refine countP_lt_countP hm ?_ ?_ ?_
  · intro y hy
    simp only [List.contains_cons, Bool.not_or, Bool.and_eq_true] at hy
    exact hy.2
  · rw [he]
    simpa using hn
  · simp [he]

/-- The leaves below a declaration. The fields of a record are states whatever their direction. -/
def Declaration.leaves (records : List RecordType) (opened : List String) (key : String)
    (causality : Causality) (d : Declaration) : List Leaf :=
  match d.type with
  | .primitive type =>
    [.entry key
      { type, causality, line := d.line, dimensions := d.sizes?.getD [], range := d.range }]
  | .record name =>
    if hn : opened.contains name then [.issue (selfContainedIssue name d.line)]
    else
      match hf : findRecord? records name with
      | none => [.issue (unknownRecordIssue name key d.line)]
      | some record =>
        have _fewer := unopened_cons_lt hn hf
        record.fields.flatMap fun field =>
          field.leaves records (name :: opened) (key ++ "." ++ field.name) .state
termination_by unopened records opened
decreasing_by assumption

/-- Enters the leaves of declarations one by one. A name that is already there is entered again, with a
warning. -/
def VariableTable.enter (table : VariableTable) : List Leaf → VariableTable × List Diagnostic
  | [] => (table, [])
  | .issue d :: rest =>
    let (last, issues) := table.enter rest
    (last, d :: issues)
  | .entry key entry :: rest =>
    let (last, issues) := (table.declare .element key entry).enter rest
    match table.get? key with
    | some previous => (last, duplicateIssue key entry.line previous.line :: issues)
    | none => (last, issues)

/-- Enters a declared variable with everything below it. -/
def VariableTable.declareAll (table : VariableTable) (records : List RecordType) (d : Declaration) :
    VariableTable × List Diagnostic :=
  table.enter (d.leaves records [] d.name d.causality)

end GalecAudit
