import GalecAudit.Command.Run

/-!
# Programs

The files and streams of the system for the two programs. The name under which the program is started
decides which of them it is.
-/
namespace GalecAudit

/-- The number of a failure. Some operations report it with the opposite sign. -/
def failureNumber (code : UInt32) : Nat :=
  if code.toNat < 2147483648 then code.toNat else 4294967296 - code.toNat

/-- How the commonest failures are worded, whichever operation reports them. -/
def failureReason (number : Nat) (reason : String) : String :=
  match number with
  | 2 => "No such file or directory"
  | 13 => "Permission denied"
  | 20 => "Not a directory"
  | 21 => "Is a directory"
  | 36 => "File name too long"
  | 40 => "Too many levels of symbolic links"
  | _ => reason

def systemFailure (code : UInt32) (reason : String) : FileFailure :=
  .system (failureReason (failureNumber code) reason) (failureNumber code)

/-- The failure that the system reports. -/
def failureOfSystem : IO.Error → FileFailure
  | .noFileOrDirectory _ code reason | .permissionDenied _ code reason
  | .inappropriateType _ code reason | .invalidArgument _ code reason
  | .noSuchThing _ code reason | .alreadyExists _ code reason
  | .resourceExhausted _ code reason | .interrupted _ code reason
  | .otherError code reason | .resourceBusy code reason | .resourceVanished code reason
  | .hardwareFault code reason | .illegalOperation code reason | .protocolError code reason
  | .timeExpired code reason | .unsatisfiedConstraints code reason
  | .unsupportedOperation code reason => systemFailure code reason
  | e => .system (toString e) 0

def readText (path : String) : IO (Except FileFailure String) := do
  if path.contains '\x00' then return .error .invalidPath
  try
    match String.fromUTF8? (← IO.FS.readBinFile path) with
    | some text => return .ok text
    | none => return .error .notText
  catch e => return .error (failureOfSystem e)

def writeText (path text : String) : IO (Except FileFailure Unit) := do
  if path.contains '\x00' then return .error .invalidPath
  try
    IO.FS.writeFile path text
    return .ok ()
  catch e => return .error (failureOfSystem e)

def isAnythingAt (path : String) : IO Bool := do
  if path.contains '\x00' then return false
  try
    (← IO.FS.realPath path).pathExists
  catch _ => return false

/-- The files of the system. -/
def systemFiles : FileAccess IO := { read := readText, isThere := isAnythingAt, write := writeText }

/-- Whether the environment asks for colours, or the output is a terminal and nothing speaks against
them. -/
def usesColour : IO Bool := do
  let isSet (name : String) : IO Bool := do
    match ← IO.getEnv name with
    | some value => return value != "0"
    | none => return false
  if ← isSet "CLICOLOR_FORCE" then return true
  if (← IO.getEnv "NO_COLOR").isSome then return false
  if (← IO.getEnv "CLICOLOR") == some "0" then return false
  (← IO.getStdout).isTty

end GalecAudit

open GalecAudit in
def main (words : List String) : IO UInt32 := do
  let name := (← IO.appPath).fileStem.getD ""
  let t ←
    if name == "efmi_parse_alg" then runSummary systemFiles words
    else runCheck systemFiles (← usesColour) words
  (← IO.getStdout).putStr t.output
  (← IO.getStderr).putStr t.errors
  return t.status.toUInt32
