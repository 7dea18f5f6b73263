import GalecAudit.Text.Quoted

/-!
# Faults of JSON texts

Why a text is refused, and the line and column that are reported for it.
-/
namespace GalecAudit.Json

/-- A value of a kind that is not expected, as messages name it. -/
inductive Found where
  | null
  | bool (b : Bool)
  | integer (n : Int)
  | decimal (text : String)
  | text (s : String)
  | list
  | object
deriving DecidableEq, Repr, Inhabited

inductive ReadFault where
  | unfinishedValue
  | unfinishedList
  | unfinishedObject
  | unfinishedText
  | expectedColon
  | expectedListEnd
  | expectedObjectEnd
  | expectedWord
  | expectedValue
  | invalidEscape
  | invalidNumber
  | numberTooLarge
  | controlCharacter
  | loneSurrogate
  | unfinishedEscape
  | keyNotText
  | trailingComma
  | trailingCharacters
  | wrongKind (found : Found) (expected : String)
  | unknownWord (word : String) (known : List String)
  | repeatedKey (key : String)
deriving DecidableEq, Repr, Inhabited

def Found.describe : Found → String
  | null => "null"
  | bool b => "boolean `" ++ toString b ++ "`"
  | integer n => s!"integer `{n}`"
  | decimal s => s!"floating point `{s}`"
  | text s => "string " ++ Text.quoted s
  | list => "sequence"
  | object => "map"

/-- The words that are known, as a message lists them. -/
def choices (words : List String) : String :=
  match words.map fun word => "`" ++ word ++ "`" with
  | [a] => a
  | [a, b] => a ++ " or " ++ b
  | quoted => "one of " ++ ", ".intercalate quoted

def ReadFault.message : ReadFault → String
  | unfinishedValue => "EOF while parsing a value"
  | unfinishedList => "EOF while parsing a list"
  | unfinishedObject => "EOF while parsing an object"
  | unfinishedText => "EOF while parsing a string"
  | expectedColon => "expected `:`"
  | expectedListEnd => "expected `,` or `]`"
  | expectedObjectEnd => "expected `,` or `\x7d`"
  | expectedWord => "expected ident"
  | expectedValue => "expected value"
  | invalidEscape => "invalid escape"
  | invalidNumber => "invalid number"
  | numberTooLarge => "number out of range"
  | controlCharacter => "control character (\\u0000-\\u001F) found while parsing a string"
  | loneSurrogate => "lone leading surrogate in hex escape"
  | unfinishedEscape => "unexpected end of hex escape"
  | keyNotText => "key must be a string"
  | trailingComma => "trailing comma"
  | trailingCharacters => "trailing characters"
  | wrongKind found expected => s!"invalid type: {found.describe}, expected {expected}"
  | unknownWord word known => s!"unknown variant `{word}`, expected {choices known}"
  | repeatedKey key => s!"duplicate field `{key}`"

/-- A fault where it is noticed. Columns count bytes. -/
structure ReadError where
  fault : ReadFault
  line : Nat
  column : Nat
deriving DecidableEq, Repr, Inhabited

def ReadError.message (e : ReadError) : String :=
  s!"{e.fault.message} at line {e.line} column {e.column}"

end GalecAudit.Json
