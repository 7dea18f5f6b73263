import GalecAudit.Diagnostic
import GalecAudit.Language.Declaration
import GalecAudit.Language.Routine

/-!
# Blocks

A block of the checked language in its flat form: its tables of variables, its records, signals and
routines, and what was found wrong while it was flattened.
-/
namespace GalecAudit

structure Signal where
  name : String
  line : Nat
deriving DecidableEq, Repr, Inhabited

structure Block where
  name : String
  line : Nat
  /-- The inputs, outputs, parameters and constants of the block. -/
  entities : VariableTable
  /-- The variables of the protected section, states unless they have a direction. -/
  protectedVariables : VariableTable
  records : List RecordType
  signals : List Signal
  routines : List Routine
  issues : List Diagnostic
deriving Inhabited

def Block.bindingCount (block : Block) : Nat :=
  (block.routines.flatMap Routine.bindings).length

end GalecAudit
