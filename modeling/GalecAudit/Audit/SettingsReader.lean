import GalecAudit.Audit.Settings
import GalecAudit.Json.Number

/-!
# Reading settings

Settings are written as an object with a member for each field, or as a list of the values of the fields
in their order. Fields may be missing and then have their default; other members are passed over.
-/
namespace GalecAudit

/-- The fields of settings, in the order of their list. -/
inductive SettingsField where
  | format
  | duplicates
  | crossCheck
  | algorithmLabel
  | equationLabel
  | failOnWarnings
deriving DecidableEq, Repr, Inhabited

namespace SettingsField

def name : SettingsField → String
  | format => "format"
  | duplicates => "duplicate_declarations"
  | crossCheck => "cross_check"
  | algorithmLabel => "algorithm_label"
  | equationLabel => "equation_label"
  | failOnWarnings => "fail_on_warnings"

def all : List SettingsField :=
  [format, duplicates, crossCheck, algorithmLabel, equationLabel, failOnWarnings]

def ofName? (name : String) : Option SettingsField := all.find? fun f => f.name == name

end SettingsField

namespace Settings

open Json (Reader)
open Json.Reader

/-- Settings with the value of one field that comes next in the text. -/
def readField (settings : Settings) : SettingsField → Reader Settings
  | .format => do
    let format ← choice ReportFormat.all ReportFormat.name
    return { settings with format }
  | .duplicates => do
    let duplicates ← choice DuplicatePolicy.all DuplicatePolicy.name
    return { settings with duplicates }
  | .crossCheck => do
    let crossCheck ← bool
    return { settings with crossCheck }
  | .algorithmLabel => do
    let algorithmLabel ← textValue "a string"
    return { settings with algorithmLabel }
  | .equationLabel => do
    let equationLabel ← textValue "a string"
    return { settings with equationLabel }
  | .failOnWarnings => do
    let failOnWarnings ← bool
    return { settings with failOnWarnings }

/-- Refuses a second member for a field. The place is behind the key, its blanks, and a brace that
stands there. -/
def repeatedField {α : Type} (field : SettingsField) : Reader α := do
  match ← peekValue with
  | some '}' => advance
  | _ => pure ()
  failHere (.repeatedKey field.name)

/-- One member of an object, given the fields before it. -/
def readMember (settings : Settings) (seen : List SettingsField) :
    Reader (Settings × List SettingsField) := do
  let key ← text
  match SettingsField.ofName? key with
  | none =>
    colon
    skip
    return (settings, seen)
  | some field =>
    if seen.contains field then repeatedField field
    else
      colon
      let settings ← settings.readField field
      return (settings, field :: seen)

/-- The members of an object behind one of them. -/
def readMembers (settings : Settings) (seen : List SettingsField) : Nat → Reader Settings
  | 0 => return settings
  | steps + 1 => do
    match ← peekValue with
    | some '}' => advance; return settings
    | some ',' =>
      advance
      match ← peekValue with
      | some '"' =>
        advance
        let (settings, seen) ← settings.readMember seen
        readMembers settings seen steps
      | some '}' => failAhead .trailingComma
      | some _ => failAhead .keyNotText
      | none => failAhead .unfinishedValue
    | some _ => failAhead .expectedObjectEnd
    | none => failAhead .unfinishedObject

/-- Settings behind the brace that opens their object. -/
def readObject : Reader Settings := do
  match ← peekValue with
  | some '}' => advance; return {}
  | some '"' =>
    advance
    let (settings, seen) ← readMember {} []
    bounded (readMembers settings seen)
  | some _ => failAhead .keyNotText
  | none => failAhead .unfinishedObject

/-- The end of a list, all of whose values have been read. -/
def endList : Reader Unit := do
  match ← peekValue with
  | some ']' => advance
  | some ',' =>
    advance
    match ← peekValue with
    | some ']' => failAhead .trailingComma
    | _ => failAhead .trailingCharacters
  | some _ => failAhead .trailingCharacters
  | none => failAhead .unfinishedList

/-- The values of the given fields behind one value of a list, up to the end of the list. -/
def readItems (settings : Settings) : List SettingsField → Reader Settings
  | [] => do
    endList
    return settings
  | field :: rest => do
    match ← peekValue with
    | some ']' => advance; return settings
    | some ',' =>
      advance
      match ← peekValue with
      | some ']' => failAhead .trailingComma
      | some _ =>
        let settings ← settings.readField field
        readItems settings rest
      | none => failAhead .unfinishedValue
    | some _ => failAhead .expectedListEnd
    | none => failAhead .unfinishedList

/-- Settings behind the bracket that opens their list. -/
def readList : Reader Settings := do
  match ← peekValue with
  | some ']' => advance; return {}
  | some _ =>
    let settings ← readField {} .format
    readItems settings (SettingsField.all.drop 1)
  | none => failAhead .unfinishedList

/-- Settings as a whole text. -/
def readDocument : Reader Settings := do
  let settings ← (do
    match ← peekValue with
    | some '{' => advance; readObject
    | some '[' => advance; readList
    | some _ => wrongKind "struct AuditConfig"
    | none => failAhead .unfinishedValue : Reader Settings)
  match ← peekValue with
  | none => return settings
  | some _ => failAhead .trailingCharacters

def ofText (source : String) : Except Json.ReadError Settings :=
  (readDocument (Json.Cursor.start source)).map Prod.fst

end Settings
end GalecAudit
