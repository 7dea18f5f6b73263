import GalecAudit.Grammar.Block
import GalecAudit.Grammar.SyntaxError
import GalecAudit.Source.Flatten

/-!
# Reading sources

From a text to an expression or a block in flat form, or to the reason why there is none.
-/
namespace GalecAudit

/-- Why a source text has no flat form. -/
inductive SourceError where
  | refused (error : Grammar.SyntaxError)
  | invalidLiteral (error : Source.InvalidLiteral)
deriving DecidableEq, Repr, Inhabited

namespace SourceError

def line : SourceError → Nat
  | refused e => e.line
  | invalidLiteral e => e.line

def message : SourceError → String
  | refused e => e.text
  | invalidLiteral e => e.message

end SourceError

/-- Reads a text that is one expression, outside of any loop. -/
def readExpression (source : String) : Except SourceError Expression :=
  match Grammar.standaloneExpression.run source with
  | .error e => .error (.refused e)
  | .ok tree =>
    match tree.resolve [] with
    | .error e => .error (.invalidLiteral e)
    | .ok e => .ok e

/-- Reads a text that is one block. -/
def readBlock (source : String) : Except SourceError Block :=
  match Grammar.algorithmCode.run source with
  | .error e => .error (.refused e)
  | .ok tree =>
    match tree.flatten with
    | .error e => .error (.invalidLiteral e)
    | .ok block => .ok block

end GalecAudit
