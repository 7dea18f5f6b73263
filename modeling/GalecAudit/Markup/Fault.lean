import GalecAudit.Text.Quoted

/-!
# Faults of markup

What can be wrong with a document as markup, and the text that says so. Offsets inside the texts count
bytes from the start of the tag name or of the attribute value.
-/
namespace GalecAudit.Markup

/-- What is wrong with an attribute of a tag. -/
inductive AttributeFault where
  | missingEquals (position : Nat)
  | missingValue (position : Nat)
  | unquotedValue (position : Nat)
  | unclosedQuote (position : Nat) (quote : Char)
  | duplicate (position previous : Nat)
deriving DecidableEq, Repr, Inhabited

/-- What is wrong with an escaped character in an attribute value. -/
inductive EscapeFault where
  | unterminated (start stop : Nat)
  | unknownName (start stop : Nat) (name : String)
  | longDecimal
  | longHexadecimal
  | invalidDecimal (c : Char)
  | invalidHexadecimal (c : Char)
  | nullCharacter (start stop : Nat)
  | invalidCodePoint (code : Nat)
deriving DecidableEq, Repr, Inhabited

/-- Constructs that a document may leave unfinished. -/
inductive Construct where
  | declaration
  | comment
  | characterData
  | documentType
  | instruction
  | element
deriving DecidableEq, Repr, Inhabited

inductive Fault where
  | unfinished (construct : Construct)
  /-- What follows an exclamation mark begins no declaration. -/
  | unexpectedSymbol (symbol : Char)
  | emptyDocumentType
  | mismatchedEnd (opened closed : String)
  /-- Elements that are still open where the document ends, from the outermost one. -/
  | unclosed (path : List String)
  | badAttribute (fault : AttributeFault)
  | badEscape (fault : EscapeFault)
deriving DecidableEq, Repr, Inhabited

def AttributeFault.message : AttributeFault → String
  | missingEquals position =>
    s!"position {position}: attribute key must be directly followed by `=` or space"
  | missingValue position => s!"position {position}: `=` must be followed by an attribute value"
  | unquotedValue position =>
    s!"position {position}: attribute value must be enclosed in `\"` or `'`"
  | unclosedQuote position quote =>
    s!"position {position}: missing closing quote `{quote}` in attribute value"
  | duplicate position previous =>
    s!"position {position}: duplicated attribute, previous declaration at position {previous}"

/-- The beginning of the texts that point into a value. -/
def EscapeFault.atRange (start stop : Nat) (message : String) : String :=
  s!"Error while escaping character at range {start}..{stop}: {message}"

def EscapeFault.message : EscapeFault → String
  | unterminated start stop => atRange start stop "Cannot find ';' after '&'"
  | unknownName start stop name =>
    atRange start stop ("Unrecognized escape symbol: " ++ Text.quoted name)
  | longDecimal => "Cannot convert decimal to utf8"
  | longHexadecimal => "Cannot convert hexadecimal to utf8"
  | invalidDecimal c => s!"'{c}' is not a valid decimal character"
  | invalidHexadecimal c => s!"'{c}' is not a valid hexadecimal character"
  | nullCharacter start stop => atRange start stop "Null character entity not allowed"
  | invalidCodePoint code => s!"'{code}' is not a valid codepoint"

/-- The name of an unfinished construct in the text on it. -/
def Construct.name : Construct → String
  | declaration => "Bang"
  | comment => "Comment"
  | characterData => "CData"
  | documentType => "DOCTYPE"
  | instruction => "XmlDecl"
  | element => "Element"

def Fault.message : Fault → String
  | unfinished construct => s!"Unexpected EOF during reading {construct.name}"
  | unexpectedSymbol symbol =>
    "Only Comment (`--`), CDATA (`[CDATA[`) and DOCTYPE (`DOCTYPE`) nodes can start with a '!', " ++
      s!"but symbol `{symbol}` found"
  | emptyDocumentType => "DOCTYPE declaration must not be empty"
  | mismatchedEnd opened closed => s!"Expecting </{opened}> found </{closed}>"
  | unclosed path => "unclosed element <" ++ "/".intercalate path ++ ">"
  | badAttribute fault => fault.message
  | badEscape fault => fault.message

end GalecAudit.Markup
