import GalecAudit.Audit.Container
import GalecAudit.Audit.SettingsReader
import GalecAudit.Command.Arguments
import GalecAudit.Report.Basic

/-!
# Commands

What the two programs do with their words: what they print, what they write to files, and the status with
which they end.
-/
namespace GalecAudit

/-- What a program leaves behind: its status and the texts on its two streams. -/
structure Transcript where
  status : Nat
  output : String := ""
  errors : String := ""
deriving DecidableEq, Repr, Inhabited

/-- An error that ends a command, with its cause if it has one. -/
structure CommandError where
  message : String
  cause : Option String := none
deriving DecidableEq, Repr, Inhabited

namespace CommandError

/-- The text for one line. -/
def line (e : CommandError) : String :=
  match e.cause with
  | some cause => e.message ++ ": " ++ cause
  | none => e.message

/-- Indents the lines of a text behind its first one. -/
def indent (cs : List Char) : List Char :=
  cs.flatMap fun c => if c = '\n' then '\n' :: List.replicate 4 ' ' else [c]

/-- The text at the end of a program, where the cause stands below. -/
def text (e : CommandError) : String :=
  "Error: " ++ e.message ++ "\n" ++ match e.cause with
    | some cause => "\nCaused by:\n    " ++ String.ofList (indent cause.toList) ++ "\n"
    | none => ""

end CommandError

/-- The settings in what has been read of their file. -/
def settingsOf (path : String) : Except FileFailure String → Except CommandError Settings
  | .error failure => .error ⟨s!"failed to read config {path}", some failure.message⟩
  | .ok source =>
    match Settings.ofText source with
    | .error e => .error ⟨s!"invalid config {path}", some e.message⟩
    | .ok settings => .ok settings

/-- The format that a word asks for, whatever its case and the blanks around it. -/
def formatOf (word : String) : Except CommandError ReportFormat :=
  let name := String.ofList ((Text.trim word).toList.map Char.toLower)
  match ReportFormat.all.find? fun f => f.name == name with
  | some format => .ok format
  | none => .error ⟨s!"unknown --format `{name}` (expected text|json)", none⟩

/-- The settings of an invocation: those of its file, with the format that it asks for. -/
def Invocation.settings (i : Invocation) (fromFile : Settings) : Except CommandError Settings :=
  match i.format with
  | some word => (formatOf word).map fun format => { fromFile with format }
  | none => .ok fromFile

/-- The counts that summarize a block. -/
def Block.summary (b : Block) : String :=
  s!"block={b.name} variables={b.entities.size} protected={b.protectedVariables.size} functions={b.routines.length} bindings={b.bindingCount} issues={b.issues.length}"

/-- What is shown of a block that has been read. -/
def Block.show (b : Block) (path : String) (asJson colour : Bool) : String :=
  if asJson then b.toJson.render
  else
    Style.paint .boldGreen colour "ok" ++ s!" {path}: {b.summary}" ++
      String.join (b.issues.map fun issue => "\n  " ++ issue.text)

def Report.render (r : Report) (format : ReportFormat) (colour : Bool) : String :=
  match format with
  | .json => r.toJson.render
  | .text => r.text colour

/-- The error of a command whose findings make it fail. -/
def failureOf (command : String) (o : Outcome) : CommandError :=
  ⟨s!"{command} found {o.errorCount} error(s) and {o.warningCount} warning(s)", none⟩

section Running

variable {m : Type → Type} [Monad m] (files : FileAccess m)

/-- Reads the settings of an invocation. -/
def loadSettings (i : Invocation) : m (Except CommandError Settings) := do
  match i.config with
  | none => return i.settings {}
  | some path =>
    match settingsOf path (← files.read path) with
    | .error e => return .error e
    | .ok settings => return i.settings settings

/-- Prints a text, or writes it to the file that is asked for and says so. -/
def emit (out : Option String) (colour : Bool) (text : String) : m (Except CommandError Transcript) := do
  match out with
  | none => return .ok { status := 0, output := text ++ "\n" }
  | some path =>
    match ← files.write path text with
    | .error failure => return .error ⟨s!"failed to write {path}", some failure.message⟩
    | .ok () =>
      let notice := Style.paint .boldGreen colour "wrote" ++ " " ++ Style.paint .bold colour path
      return .ok { status := 0, errors := notice ++ "\n" }

/-- A transcript that an error ends. -/
def Transcript.fail (t : Transcript) (e : CommandError) : Transcript :=
  { t with status := 1, errors := t.errors ++ e.text }

/-- Reads one source and shows what is in it. -/
def runParse (i : Invocation) (colour : Bool) (path : String) (asJson : Bool) : m Transcript := do
  match ← files.read path with
  | .error failure =>
    return Transcript.fail default ⟨s!"failed to read {path}", some failure.message⟩
  | .ok source =>
    match readBlock source with
    | .error e => return Transcript.fail default ⟨s!"{path}: {e.message}", none⟩
    | .ok block =>
      match ← emit files i.out colour (block.show path asJson colour) with
      | .error e => return Transcript.fail default e
      | .ok t => return t

/-- Reports an outcome. A report that is written to a file has no colours. -/
def finish (i : Invocation) (settings : Settings) (colour : Bool) (command : String) (o : Outcome) :
    m Transcript := do
  let colour := colour && i.out.isNone
  let report : Report := ⟨command, o⟩
  match ← emit files i.out colour (report.render settings.format colour) with
  | .error e => return Transcript.fail default e
  | .ok t =>
    if settings.fails o.diagnostics && !i.noFail then return t.fail (failureOf command o)
    else return t

/-- Audits a manifest and, where a second one is given, reconciles them. -/
def auditAgainst (settings : Settings) (manifest : String) (sources : List String)
    (against : Option String) : m Outcome := do
  let o ← auditRepresentation files settings manifest sources
  match against with
  | none => return o
  | some other =>
    if settings.crossCheck then
      return o.merge (← auditReconciliation files settings manifest other)
    else return o

/-- Does what an invocation asks for. -/
def Invocation.run (i : Invocation) (colour : Bool) : m Transcript := do
  match ← loadSettings files i with
  | .error e => return Transcript.fail default e
  | .ok settings =>
    match i.command with
    | .parse path asJson => runParse files i colour path asJson
    | .check manifest sources against =>
      finish files i settings colour "check" (← auditAgainst files settings manifest sources against)
    | .reconcile first second =>
      finish files i settings colour "reconcile" (← auditReconciliation files settings first second)
    | .audit dir noCrossCheck =>
      let settings := { settings with crossCheck := settings.crossCheck && !noCrossCheck }
      finish files i settings colour "audit" (← auditContainer files settings dir)

/-- What is said where the words of the checking program are not in order. -/
def checkUsage : String :=
  "usage: efmi-check [--config <path>] [--format text|json] [--out <path>] [--no-fail] <command>\n\n" ++
  "commands:\n" ++
  "  parse <source> [--json]\n" ++
  "  check --manifest <path> [--alg <source>]... [--against <path>]\n" ++
  "  reconcile <first> <second>\n" ++
  "  audit <dir> [--no-cross-check]\n"

/-- The checking program. -/
def runCheck (colour : Bool) (words : List String) : m Transcript :=
  match Invocation.ofWords? words with
  | none => return { status := 2, errors := checkUsage }
  | some i => i.run files colour

/-- The summarizing program, which reads one source and prints one line. -/
def runSummary (words : List String) : m Transcript := do
  match words with
  | [path] =>
    match ← files.read path with
    | .error failure =>
      return { status := 2, errors := s!"failed to read `{path}`: {failure.message}\n" }
    | .ok source =>
      match readBlock source with
      | .error e => return { status := 1, errors := s!"{path}: {e.message}\n" }
      | .ok block => return { status := 0, output := s!"ok(alg): {block.summary}\n" }
  | _ => return { status := 2, errors := "usage: efmi_parse_alg <file.alg>\n" }

end Running
end GalecAudit
