import GalecAudit.Json.Fault
import GalecAudit.Text.Bytes
import GalecAudit.Text.Digits

/-!
# Reading JSON texts

A reader takes the beginning of a text and keeps the line and column behind it. It stops at the first
fault. Faults of the text point at the character that is refused, and faults of a value point behind
it.
-/
namespace GalecAudit.Json

/-- What remains of a text, and the line and column of what has been read of it. -/
structure Cursor where
  rest : List Char
  line : Nat
  column : Nat
deriving DecidableEq, Repr, Inhabited

abbrev Reader (α : Type) := StateT Cursor (Except ReadError) α

namespace Cursor

def start (text : String) : Cursor := ⟨text.toList, 1, 0⟩

/-- The cursor behind one character. -/
def next (c : Cursor) : Cursor :=
  match c.rest with
  | [] => c
  | '\n' :: rest => ⟨rest, c.line + 1, 0⟩
  | d :: rest => ⟨rest, c.line, c.column + d.utf8Size⟩

/-- The line and column behind at most `count` more bytes. -/
def placeAfter (c : Cursor) (count : Nat) : Nat × Nat :=
  match count with
  | 0 => (c.line, c.column)
  | count + 1 =>
    match c.rest with
    | [] => (c.line, c.column)
    | d :: _ =>
      if d.utf8Size ≤ count + 1 then c.next.placeAfter (count + 1 - d.utf8Size)
      else (c.line, c.column + count + 1)
termination_by count
decreasing_by
  have := d.utf8Size_pos
  omega

end Cursor

namespace Reader

/-- Refuses the text with the place after some more bytes. -/
def failAfter {α : Type} (bytes : Nat) (fault : ReadFault) : Reader α := fun c =>
  .error ⟨fault, (c.placeAfter bytes).1, (c.placeAfter bytes).2⟩

/-- Refuses what has been read. -/
def failHere {α : Type} (fault : ReadFault) : Reader α := failAfter 0 fault

/-- Refuses the character that comes next. -/
def failAhead {α : Type} (fault : ReadFault) : Reader α := failAfter 1 fault

def peek : Reader (Option Char) := fun c => .ok (c.rest.head?, c)

def advance : Reader Unit := fun c => .ok ((), c.next)

/-- The number of characters that remain, which bounds the steps of every loop. -/
def remaining : Reader Nat := fun c => .ok (c.rest.length, c)

/-- Calls a loop with enough steps for the rest of the text. -/
def bounded {α : Type} (loop : Nat → Reader α) : Reader α := do
  loop ((← remaining) + 1)

def isSpace (c : Char) : Bool := c == ' ' || c == '\n' || c == '\t' || c == '\r'

def skipWhile (p : Char → Bool) : Nat → Reader Unit
  | 0 => pure ()
  | steps + 1 => do
    match ← peek with
    | some c => if p c then advance; skipWhile p steps else pure ()
    | none => pure ()

/-- The next character behind blanks. -/
def peekValue : Reader (Option Char) := do
  bounded (skipWhile isSpace)
  peek

/-- The rest of a word. -/
def word : List Char → Reader Unit
  | [] => pure ()
  | c :: rest => do
    match ← peek with
    | none => failHere .unfinishedValue
    | some d => if d = c then advance; word rest else failAhead .expectedWord

/-- The colon behind a key. -/
def colon : Reader Unit := do
  match ← peekValue with
  | some ':' => advance
  | some _ => failAhead .expectedColon
  | none => failAhead .unfinishedObject

/-! ## Texts -/

/-- The number of bytes that remain. -/
def remainingBytes : Reader Nat := fun c => .ok (Text.byteSize c.rest, c)

/-- Four digits to base sixteen. -/
def codeUnit : Reader Nat := do
  let bytes ← remainingBytes
  if bytes < 4 then failAfter bytes .unfinishedText
  else
    let c : Cursor ← get
    match (c.rest.take 4).mapM (Text.digitValue? 16) with
    | some digits =>
      advance; advance; advance; advance
      return digits.foldl (fun n d => 16 * n + d) 0
    | none => failAfter 4 .invalidEscape

def isLeading (unit : Nat) : Bool := decide (0xD800 ≤ unit ∧ unit ≤ 0xDBFF)

def isTrailing (unit : Nat) : Bool := decide (0xDC00 ≤ unit ∧ unit ≤ 0xDFFF)

/-- A character that has to come next in the second half of a pair of code units. -/
def pairMark (c : Char) : Reader Unit := do
  match ← peek with
  | none => failHere .unfinishedText
  | some d => if d = c then advance else failAhead .unfinishedEscape

/-- The character of one code unit or of a pair. -/
def unicodeEscape : Reader Char := do
  let first ← codeUnit
  if isTrailing first then failHere .loneSurrogate
  else if isLeading first then
    pairMark '\\'
    pairMark 'u'
    let second ← codeUnit
    if isTrailing second then
      return Char.ofNat ((first - 0xD800) * 0x400 + (second - 0xDC00) + 0x10000)
    else failHere .loneSurrogate
  else return Char.ofNat first

def simpleEscape? : Char → Option Char
  | '"' => some '"'
  | '\\' => some '\\'
  | '/' => some '/'
  | 'b' => some '\x08'
  | 'f' => some '\x0c'
  | 'n' => some '\n'
  | 'r' => some '\r'
  | 't' => some '\t'
  | _ => none

/-- The character behind a backslash. In a text that is passed over surrogates need not be paired. -/
def escaped (isPassedOver : Bool) : Reader Char := do
  match ← peek with
  | none => failHere .unfinishedText
  | some 'u' =>
    advance
    if isPassedOver then
      let _ ← codeUnit
      return ' '
    else unicodeEscape
  | some c =>
    match simpleEscape? c with
    | some d => advance; return d
    | none => failAhead .invalidEscape

/-- The characters up to the closing quote, behind those in `read`, the last of which stands first. -/
def textBody (isPassedOver : Bool) (read : List Char) : Nat → Reader (List Char)
  | 0 => return read
  | steps + 1 => do
    match ← peek with
    | none => failHere .unfinishedText
    | some '"' => advance; return read
    | some '\\' =>
      advance
      let c ← escaped isPassedOver
      textBody isPassedOver (c :: read) steps
    | some c =>
      if c.toNat < 0x20 then
        if isPassedOver then failHere .controlCharacter else failAhead .controlCharacter
      else
        advance
        textBody isPassedOver (c :: read) steps

/-- A text behind its opening quote. -/
def text : Reader String := do
  let read ← bounded (textBody false [])
  return String.ofList read.reverse

def skipText : Reader Unit := do
  let _ ← bounded (textBody true [])

/-! ## Values that are passed over -/

def skipDigits : Reader Unit := bounded (skipWhile Char.isDigit)

/-- One digit and those behind it. -/
def digits : Reader Unit := do
  match ← peek with
  | some c => if c.isDigit then skipDigits else failAhead .invalidNumber
  | none => failHere .invalidNumber

def skipExponent : Reader Unit := do
  match ← peek with
  | some 'e' | some 'E' =>
    advance
    match ← peek with
    | some '+' | some '-' => advance
    | _ => pure ()
    digits
  | _ => pure ()

/-- A number behind its sign. -/
def skipNumber : Reader Unit := do
  match ← peek with
  | some '0' =>
    advance
    match ← peek with
    | some c => if c.isDigit then failAhead .invalidNumber else pure ()
    | none => pure ()
  | _ => digits
  match ← peek with
  | some '.' => advance; digits; skipExponent
  | _ => skipExponent

mutual

/-- Passes over a value. -/
def skipValue : Nat → Reader Unit
  | 0 => pure ()
  | steps + 1 => do
    match ← peekValue with
    | none => failAhead .unfinishedValue
    | some 'n' => advance; word "ull".toList
    | some 't' => advance; word "rue".toList
    | some 'f' => advance; word "alse".toList
    | some '-' => advance; skipNumber
    | some '"' => advance; skipText
    | some '[' =>
      advance
      match ← peekValue with
      | none => failAhead .unfinishedList
      | some ']' => advance
      | some _ => skipItems steps
    | some '{' =>
      advance
      match ← peekValue with
      | none => failAhead .unfinishedObject
      | some '}' => advance
      | some _ => skipMembers steps
    | some c => if c.isDigit then skipNumber else failAhead .expectedValue

/-- Passes over the items of a list up to its end. -/
def skipItems : Nat → Reader Unit
  | 0 => pure ()
  | steps + 1 => do
    skipValue steps
    match ← peekValue with
    | none => failAhead .unfinishedList
    | some ']' => advance
    | some ',' => advance; skipItems steps
    | some _ => failAhead .expectedListEnd

/-- Passes over the members of an object up to its end. -/
def skipMembers : Nat → Reader Unit
  | 0 => pure ()
  | steps + 1 => do
    match ← peekValue with
    | none => failAhead .unfinishedObject
    | some '"' => advance
    | some _ => failAhead .keyNotText
    skipText
    colon
    skipValue steps
    match ← peekValue with
    | none => failAhead .unfinishedObject
    | some '}' => advance
    | some ',' => advance; skipMembers steps
    | some _ => failAhead .expectedObjectEnd

end

/-- Passes over a whole value. Each character needs at most two steps, of which a bracket needs one for
the value that it opens and one for the first item. -/
def skip : Reader Unit := do
  skipValue (2 * (← remaining) + 2)

end Reader
end GalecAudit.Json
