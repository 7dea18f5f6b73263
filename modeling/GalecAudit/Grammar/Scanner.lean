/-!
# Scanners

A scanner finds a lexeme at the start of a text, without trivia inside it. It returns the lexeme, so
that the text is always the lexeme followed by what remains.
-/
namespace GalecAudit.Grammar

abbrev Scanner := List Char → Option (List Char)

namespace Scanner

/-- The given text. -/
def text (s : String) : Scanner := fun cs => if s.toList.isPrefixOf cs then some s.toList else none

/-- One character of a class. -/
def one (p : Char → Bool) : Scanner
  | c :: _ => if p c then some [c] else none
  | [] => none

/-- The longest run, possibly empty, of characters of a class. -/
def span (p : Char → Bool) : Scanner := fun cs => some (cs.takeWhile p)

/-- The longest run, not empty, of characters of a class. -/
def span1 (p : Char → Bool) : Scanner := fun cs =>
  match cs.takeWhile p with
  | [] => none
  | run => some run

/-- A lexeme that no character of a class follows. -/
def notBefore (p : Char → Bool) (s : Scanner) : Scanner := fun cs =>
  match s cs with
  | some lexeme => if (cs.drop lexeme.length).head?.any p then none else some lexeme
  | none => none

/-- One lexeme after another. -/
def andThen (s t : Scanner) : Scanner := fun cs =>
  match s cs with
  | some first => (t (cs.drop first.length)).map (first ++ ·)
  | none => none

/-- The first of two scanners that finds a lexeme. -/
def orElse (s t : Scanner) : Scanner := fun cs =>
  match s cs with
  | some lexeme => some lexeme
  | none => t cs

/-- The lexeme of a scanner, or the empty one. -/
def optional (s : Scanner) : Scanner := fun cs => some ((s cs).getD [])

/-- The lexemes of a scanner as often as it finds a nonempty one. -/
def many (s : Scanner) (cs : List Char) : Option (List Char) :=
  match s cs with
  | some (c :: lexeme) =>
    match cs with
    | _ :: rest => (many s (rest.drop lexeme.length)).map (c :: lexeme ++ ·)
    | [] => some []
  | _ => some []
termination_by cs.length

/-- All scanners in a row. -/
def sequence : List Scanner → Scanner
  | [] => fun _ => some []
  | s :: rest => s.andThen (sequence rest)

/-- The first scanner of a list that finds a lexeme. -/
def firstOf : List Scanner → Scanner
  | [] => fun _ => none
  | s :: rest => s.orElse (firstOf rest)

end Scanner

/-- Letters, digits and the underscore, all of them ASCII. -/
def isIdentChar (c : Char) : Bool := c.isAlphanum || c == '_'

namespace Scanner

/-- A word of its own, which no identifier character follows. -/
def word (s : String) : Scanner := (text s).notBefore isIdentChar

/-- One of several words. The first spelling that fits is taken before its end is looked at. -/
def wordOf (spellings : List String) : Scanner :=
  (firstOf (spellings.map text)).notBefore isIdentChar

end Scanner

/-- The reserved words. Longer ones stand before their own beginnings. -/
def keywords : List String :=
  ["algorithm", "and", "block", "Boolean", "break", "constant", "elseif", "else", "end",
   "enumeration", "false", "for", "function", "if", "input", "Integer", "in", "limit", "loop",
   "method", "not", "or", "output", "parameter", "protected", "public", "Real", "record", "return",
   "self", "signals", "signal", "size", "then", "true", "while"]

namespace Lexeme

open Scanner

def rawIdent : Scanner := (one Char.isAlpha).andThen (span isIdentChar)

/-- An identifier is a letter followed by identifier characters, and no reserved word. -/
def ident : Scanner := fun cs =>
  match wordOf keywords cs with
  | some _ => none
  | none => rawIdent cs

def digits : Scanner := span1 Char.isDigit

def fixedSubscript : Scanner :=
  sequence [text "[", digits, many (sequence [text ",", digits]), text "]"]

/-- A dotted path inside a quoted name. -/
def scalarPath : Scanner :=
  let segment := rawIdent.andThen (optional fixedSubscript)
  segment.andThen (many ((text ".").andThen segment))

def previousForm : Scanner := sequence [text "previous(", scalarPath, text ")"]

/-- A derivative of a path or of another derivative, nested at most `depth` times. -/
def derivativeForm : Nat → Scanner
  | 0 => fun _ => none
  | depth + 1 =>
    sequence [text "derivative(", (derivativeForm depth).orElse scalarPath, text ")"]

/-- A name in single quotes: a path, its previous value or one of its derivatives. -/
def quotedName : Scanner := fun cs =>
  sequence [text "'", firstOf [previousForm, derivativeForm cs.length, scalarPath], text "'"] cs

def exponent : Scanner :=
  sequence [one (fun c => c == 'e' || c == 'E'), optional (one fun c => c == '+' || c == '-'), digits]

/-- Digits with a point or an exponent. Digits after the point may be missing. -/
def real : Scanner :=
  digits.andThen
    ((sequence [text ".", span Char.isDigit, optional exponent]).orElse exponent)

def integer : Scanner := digits

end Lexeme
end GalecAudit.Grammar
