import GalecAudit.Markup.Escape
import GalecAudit.Markup.Piece

/-!
# Attributes

The attributes of a tag are read from left to right up to the first fault. A look-up fails only where
it reaches that fault, and the value that it finds is unescaped only then.
-/
namespace GalecAudit.Markup

open Text (byteSize)

/-- Keys with their values as they are written. No key stands twice. -/
structure Attributes where
  entries : List (String × List Char)
  fault : Option AttributeFault
deriving DecidableEq, Repr, Inhabited

/-- A text behind its blanks, with its position. -/
def skipSpaces (cs : List Char) (position : Nat) : List Char × Nat :=
  let blanks := cs.takeWhile isSpace
  (cs.drop blanks.length, position + byteSize blanks)

/-- What is left to read behind the key of an attribute, and the position there. -/
structure AfterKey where
  key : List Char
  rest : List Char
  position : Nat

/-- The next key with the equals sign behind it. A key has at least one character, which may be any. -/
def readKey (c : Char) (cs : List Char) (position : Nat) : Except AttributeFault AfterKey :=
  let key := c :: cs.takeWhile fun d => d != '=' && !isSpace d
  match skipSpaces (cs.drop (key.length - 1)) (position + byteSize key) with
  | ('=' :: rest, behind) => .ok ⟨key, rest, behind + 1⟩
  | (_, behind) => .error (.missingEquals behind)

/-- A value between quotes of one sort. -/
structure AfterValue where
  value : List Char
  rest : List Char
  position : Nat

def readValue (cs : List Char) (position : Nat) : Except AttributeFault AfterValue :=
  match skipSpaces cs position with
  | ([], behind) => .error (.missingValue behind)
  | (quote :: inner, behind) =>
    if quote = '"' ∨ quote = '\x27' then
      let value := inner.takeWhile (· != quote)
      match inner.drop value.length with
      | _ :: rest => .ok ⟨value, rest, behind + byteSize value + 2⟩
      | [] => .error (.unclosedQuote (behind + byteSize value + 1) quote)
    else .error (.unquotedValue behind)

/-- The attributes of a text at a position behind those with the keys and positions in `seen`. The
number of steps is bounded by the length of the text. -/
def readAttributes (steps : Nat) (seen : List (List Char × Nat)) (cs : List Char) (position : Nat) :
    Attributes :=
  match steps with
  | 0 => ⟨[], none⟩
  | steps + 1 =>
    match skipSpaces cs position with
    | ([], _) => ⟨[], none⟩
    | (c :: tail, start) =>
      match readKey c tail start with
      | .error fault => ⟨[], some fault⟩
      | .ok k =>
        match seen.lookup k.key with
        | some previous => ⟨[], some (.duplicate start previous)⟩
        | none =>
          match readValue k.rest k.position with
          | .error fault => ⟨[], some fault⟩
          | .ok v =>
            let following := readAttributes steps ((k.key, start) :: seen) v.rest v.position
            ⟨(String.ofList k.key, v.value) :: following.entries, following.fault⟩

/-- The attributes of a text that stands at a position. Each attribute takes at least one character. -/
def Attributes.ofText (cs : List Char) (position : Nat) : Attributes :=
  readAttributes cs.length [] cs position

/-- The value of an attribute, if the tag has one. -/
def Attributes.value? (a : Attributes) (key : String) : Except Fault (Option String) :=
  match a.entries.lookup key with
  | some written =>
    match unescape written with
    | .ok value => .ok (some (String.ofList value))
    | .error fault => .error (.badEscape fault)
  | none =>
    match a.fault with
    | some fault => .error (.badAttribute fault)
    | none => .ok none

end GalecAudit.Markup
