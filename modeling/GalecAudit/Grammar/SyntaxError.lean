import GalecAudit.Grammar.Parser

/-!
# Syntax errors

A text that the grammar refuses is reported at the furthest place at which a rule was refused, with the
rules refused there.
-/
namespace GalecAudit.Grammar

structure SyntaxError where
  line : Nat
  column : Nat
  expected : List Rule
deriving DecidableEq, Repr, Inhabited

namespace SyntaxError

/-- The alternatives of a list of names. -/
def alternatives : List String → String
  | [] => ""
  | [a] => a
  | [a, b] => a ++ " or " ++ b
  | names => ", ".intercalate names.dropLast ++ ", or " ++ names.getLast?.getD ""

def message (e : SyntaxError) : String := "expected " ++ alternatives (e.expected.map Rule.name)

def text (e : SyntaxError) : String :=
  s!"syntax error on line {e.line}, column {e.column}: " ++ e.message

/-- The error of a refused text. Columns count characters from one. -/
def ofExpected (c : Cursor) (e : Expected) : SyntaxError :=
  let before := c.rest.take e.offset
  { line := c.line + before.count '\n'
    column := (before.reverse.takeWhile fun ch => ch != '\n').length + 1
    expected := Rule.all.filter fun rule => e.rules.contains rule }

end SyntaxError

/-- Reads a whole text. -/
def Parser.run {α : Type} (p : Parser α) (source : String) : Except SyntaxError α :=
  let c := Cursor.start source
  match p.parse c with
  | some (a, _) => .ok a
  | none => .error (SyntaxError.ofExpected c (p.trace c {}).2)

end GalecAudit.Grammar
