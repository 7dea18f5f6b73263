import GalecAudit.Decimal.Float
import GalecAudit.Json.Reader

/-!
# Numbers in JSON texts

A number is exact as long as it fits into 64 bits and is written without point and exponent. All other
numbers are floating-point numbers.
-/
namespace GalecAudit.Json

/-- The digits of a number as far as they are read, as the number `significand · 10 ^ exponent`. -/
structure Scaled where
  significand : Nat
  exponent : Int

/-- What the significand of a number can hold. -/
def maxSignificand : Nat := 18446744073709551615

def maxExponent : Nat := 2147483647

namespace Scaled

/-- A digit before the point. Behind the first digit that the significand cannot hold, digits only
scale the number. -/
def integerDigit (s : Scaled) (digit : Nat) : Scaled :=
  if s.exponent = 0 ∧ s.significand * 10 + digit ≤ maxSignificand then
    ⟨s.significand * 10 + digit, 0⟩
  else ⟨s.significand, s.exponent + 1⟩

end Scaled

namespace Reader

def digitOf (c : Char) : Nat := c.toNat - '0'.toNat

def integerDigits (s : Scaled) : Nat → Reader Scaled
  | 0 => return s
  | steps + 1 => do
    match ← peek with
    | some c =>
      if c.isDigit then
        advance
        integerDigits (s.integerDigit (digitOf c)) steps
      else return s
    | none => return s

/-- Digits behind the point. Those behind the first one that does not fit are dropped. -/
def fractionDigits (isFull : Bool) (s : Scaled) : Nat → Reader Scaled
  | 0 => return s
  | steps + 1 => do
    match ← peek with
    | some c =>
      if c.isDigit then
        advance
        let significand := s.significand * 10 + digitOf c
        if isFull || decide (maxSignificand < significand) then fractionDigits true s steps
        else fractionDigits false ⟨significand, s.exponent - 1⟩ steps
      else return s
    | none => return s

/-- The digits of an exponent up to the first one with which it is beyond all bounds. -/
def exponentDigits (n : Nat) : Nat → Reader Nat
  | 0 => return n
  | steps + 1 => do
    match ← peek with
    | some c =>
      if c.isDigit && decide (n ≤ maxExponent) then
        advance
        exponentDigits (n * 10 + digitOf c) steps
      else return n
    | none => return n

/-- The floating-point number that digits stand for. -/
def finish (isNegative : Bool) (s : Scaled) : Reader Found := do
  match Decimal.toFloat? s.significand s.exponent with
  | some f => return .decimal (Decimal.floatText (if isNegative then -f else f))
  | none => failHere .numberTooLarge

/-- An exponent behind its letter. One beyond all bounds makes a number zero or too large. -/
def exponentPart (isNegative : Bool) (s : Scaled) : Reader Found := do
  let isReduced ← (do
    match ← peek with
    | some '+' => advance; return false
    | some '-' => advance; return true
    | _ => return false : Reader Bool)
  match ← peek with
  | none => failHere .unfinishedValue
  | some c =>
    if !c.isDigit then failAhead .invalidNumber
    else
      let n ← bounded (exponentDigits 0)
      if n ≤ maxExponent then
        finish isNegative ⟨s.significand, if isReduced then s.exponent - n else s.exponent + n⟩
      else if s.significand = 0 ∨ isReduced then
        skipDigits
        finish isNegative ⟨0, 0⟩
      else failHere .numberTooLarge

def fractionPart (isNegative : Bool) (s : Scaled) : Reader Found := do
  match ← peek with
  | none => failHere .unfinishedValue
  | some c =>
    if !c.isDigit then failAhead .invalidNumber
    else
      let s ← bounded (fractionDigits false s)
      match ← peek with
      | some 'e' | some 'E' => advance; exponentPart isNegative s
      | _ => finish isNegative s

/-- The number behind its integer digits. -/
def numberTail (isNegative : Bool) (s : Scaled) : Reader Found := do
  match ← peek with
  | some '.' => advance; fractionPart isNegative s
  | some 'e' | some 'E' => advance; exponentPart isNegative s
  | _ =>
    if s.exponent ≠ 0 then finish isNegative s
    else if !isNegative then return .integer s.significand
    else if 0 < s.significand ∧ s.significand ≤ 9223372036854775808 then return .integer (-s.significand)
    else finish true s

/-- A number behind its sign. -/
def number (isNegative : Bool) : Reader Found := do
  match ← peek with
  | none => failHere .unfinishedValue
  | some '0' =>
    advance
    match ← peek with
    | some c => if c.isDigit then failAhead .invalidNumber else numberTail isNegative ⟨0, 0⟩
    | none => numberTail isNegative ⟨0, 0⟩
  | some c =>
    if !c.isDigit then failAhead .invalidNumber
    else
      let s ← bounded (integerDigits ⟨0, 0⟩)
      numberTail isNegative s

/-- Refuses the value that comes next because it is of another kind than is expected. Lists and objects
are refused before they are read. -/
def wrongKind {α : Type} (expected : String) : Reader α := do
  match ← peekValue with
  | some 'n' => advance; word "ull".toList; failHere (.wrongKind .null expected)
  | some 't' => advance; word "rue".toList; failHere (.wrongKind (.bool true) expected)
  | some 'f' => advance; word "alse".toList; failHere (.wrongKind (.bool false) expected)
  | some '-' => advance; let found ← number true; failHere (.wrongKind found expected)
  | some '"' => advance; let s ← text; failHere (.wrongKind (.text s) expected)
  | some '[' => failHere (.wrongKind .list expected)
  | some '{' => failHere (.wrongKind .object expected)
  | some c =>
    if c.isDigit then
      let found ← number false
      failHere (.wrongKind found expected)
    else failAhead .expectedValue
  | none => failAhead .unfinishedValue

/-! ## Values of known kinds -/

def bool : Reader Bool := do
  match ← peekValue with
  | some 't' => advance; word "rue".toList; return true
  | some 'f' => advance; word "alse".toList; return false
  | _ => wrongKind "a boolean"

/-- A text where `expected` says in messages what it is. -/
def textValue (expected : String) : Reader String := do
  match ← peekValue with
  | some '"' => advance; text
  | _ => wrongKind expected

def null : Reader Unit := do
  match ← peekValue with
  | some 'n' => advance; word "ull".toList
  | _ => wrongKind "unit"

/-- The one among the known words that has been read. Each is given by its name. -/
def knownWord {α : Type} (all : List α) (name : α → String) (w : String) : Reader α :=
  match all.find? fun a => name a == w with
  | some a => return a
  | none => failHere (.unknownWord w (all.map name))

/-- The first key of an object behind its brace. -/
def firstKey : Reader String := do
  match ← peekValue with
  | some '"' => advance; text
  | some '}' => failAhead .expectedValue
  | some _ => failAhead .keyNotText
  | none => failAhead .unfinishedObject

/-- A choice between words: the word, or an object with the word as its only key and null as its
value. -/
def choice {α : Type} (all : List α) (name : α → String) : Reader α := do
  match ← peekValue with
  | some '"' =>
    advance
    knownWord all name (← text)
  | some '{' =>
    advance
    let a ← knownWord all name (← firstKey)
    colon
    null
    match ← peekValue with
    | some '}' => advance; return a
    | some _ => failHere .expectedValue
    | none => failHere .unfinishedObject
  | some _ => failAhead .expectedValue
  | none => failAhead .unfinishedValue

end Reader
end GalecAudit.Json
