import GalecAudit.Markup.Fault
import GalecAudit.Text.Bytes
import GalecAudit.Text.Digits

/-!
# Escaped characters

An attribute value may hold characters as escapes, by name or by number. All other characters stand for
themselves, blanks included.
-/
namespace GalecAudit.Markup

open Text (byteSize leadingByte)

/-- The value of digits behind those already read. The fault names what is no digit. -/
def readDigits (base : Nat) (invalid : Char → EscapeFault) (value : Nat) :
    List Char → Except EscapeFault Nat
  | [] => .ok value
  | c :: rest =>
    match Text.digitValue? base c with
    | some digit => readDigits base invalid (value * base + digit) rest
    | none => .error (invalid (leadingByte c))

/-- The code point of an escape by number, which is written without its leading `#`. -/
def codePoint (cs : List Char) : Except EscapeFault Nat :=
  match cs with
  | 'x' :: digits =>
    if 6 < byteSize digits then .error .longHexadecimal
    else readDigits 16 .invalidHexadecimal 0 digits
  | digits =>
    if 7 < byteSize digits then .error .longDecimal
    else readDigits 10 .invalidDecimal 0 digits

def namedCharacter? (name : List Char) : Option Char :=
  match String.ofList name with
  | "lt" => some '<'
  | "gt" => some '>'
  | "amp" => some '&'
  | "apos" => some '\x27'
  | "quot" => some '"'
  | _ => none

/-- The character that an escape stands for. The escape stands from `start` to `stop`. -/
def escapedCharacter (start stop : Nat) (body : List Char) : Except EscapeFault Char :=
  match body with
  | '#' :: number =>
    match codePoint number with
    | .error fault => .error fault
    | .ok 0 => .error (.nullCharacter start stop)
    | .ok code =>
      if code.isValidChar then .ok (Char.ofNat code) else .error (.invalidCodePoint code)
  | name =>
    match namedCharacter? name with
    | some c => .ok c
    | none => .error (.unknownName (start + 1) stop (String.ofList name))

/-- An escape that has begun: where, and what of it has been read, its last character first. -/
structure OpenEscape where
  start : Nat
  read : List Char

/-- The characters that a value of `total` bytes stands for, from a position on. -/
def unescapeFrom (total position : Nat) :
    Option OpenEscape → List Char → Except EscapeFault (List Char)
  | none, [] => .ok []
  | some escape, [] => .error (.unterminated escape.start total)
  | none, c :: rest =>
    if c = '&' then unescapeFrom total (position + 1) (some ⟨position, []⟩) rest
    else (unescapeFrom total (position + c.utf8Size) none rest).map (c :: ·)
  | some escape, c :: rest =>
    if c = '&' then .error (.unterminated escape.start total)
    else if c = ';' then
      match escapedCharacter escape.start position escape.read.reverse with
      | .error fault => .error fault
      | .ok d => (unescapeFrom total (position + 1) none rest).map (d :: ·)
    else unescapeFrom total (position + c.utf8Size) (some ⟨escape.start, c :: escape.read⟩) rest

def unescape (cs : List Char) : Except EscapeFault (List Char) :=
  unescapeFrom (byteSize cs) 0 none cs

end GalecAudit.Markup
