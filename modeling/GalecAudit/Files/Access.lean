/-!
# Access to files

Audits read files through the operations of this record, so that they can be run on the files of a
system as well as on files that are given as values.
-/
namespace GalecAudit

/-- Why a file cannot be read or written. -/
inductive FileFailure where
  /-- The reason that the system gives, with its number. -/
  | system (reason : String) (number : Nat)
  /-- The bytes of the file are no text. -/
  | notText
  /-- No path holds the character with the number zero. -/
  | invalidPath
deriving DecidableEq, Repr, Inhabited

def FileFailure.message : FileFailure → String
  | system reason number => s!"{reason} (os error {number})"
  | notText => "stream did not contain valid UTF-8"
  | invalidPath => "file name contained an unexpected NUL byte"

structure FileAccess (m : Type → Type) where
  /-- The text of a file. -/
  read : String → m (Except FileFailure String)
  /-- Whether there is something at a path. -/
  isThere : String → m Bool
  /-- Replaces the text of a file. -/
  write : String → String → m (Except FileFailure Unit)

end GalecAudit
