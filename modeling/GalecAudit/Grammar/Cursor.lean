/-!
# Cursors and trivia

A cursor is a place in a source text. Blanks and comments may stand between any two items of the
grammar; together they are called trivia.
-/
namespace GalecAudit.Grammar

/-- What remains to be read, how many characters precede it, and its line. -/
structure Cursor where
  rest : List Char
  offset : Nat
  line : Nat
deriving DecidableEq, Repr, Inhabited

namespace Cursor

/-- The start of a text. One leading byte order mark is not part of it. -/
def start (source : String) : Cursor :=
  { rest := match source.toList with
      | '\ufeff' :: rest => rest
      | cs => cs
    offset := 0
    line := 1 }

/-- The place after a text that stands at the cursor. -/
def advance (c : Cursor) (lexeme : List Char) : Cursor :=
  { rest := c.rest.drop lexeme.length
    offset := c.offset + lexeme.length
    line := c.line + lexeme.count '\n' }

/-- The text between two places. -/
def textTo (c stop : Cursor) : String := String.ofList (c.rest.take (stop.offset - c.offset))

end Cursor

/-- White space of the grammar, which is narrower than the Unicode property. -/
def isSpace (c : Char) : Bool :=
  c == ' ' || c == '\t' || c == '\x0c' || c == '\n' || c == '\r'

/-- A line comment ends before a line feed or a carriage return. -/
def endsLine (c : Char) : Bool := c == '\n' || c == '\r'

/-- The rest of a block comment with its closing mark, if it is closed. -/
def blockCommentTail : List Char → Option (List Char)
  | '*' :: '/' :: _ => some ['*', '/']
  | c :: rest => (blockCommentTail rest).map (c :: ·)
  | [] => none

/-- The longest run of white space and complete comments at the start of a text. -/
def trivia (cs : List Char) : List Char :=
  match cs with
  | '/' :: '/' :: rest =>
    let body := rest.takeWhile fun c => !endsLine c
    '/' :: '/' :: body ++ trivia (rest.drop body.length)
  | '/' :: '*' :: rest =>
    match blockCommentTail rest with
    | some body => '/' :: '*' :: body ++ trivia (rest.drop body.length)
    | none => []
  | c :: rest => if isSpace c then c :: trivia rest else []
  | [] => []
termination_by cs.length

/-- The place after the trivia at the cursor. -/
def Cursor.skip (c : Cursor) : Cursor := c.advance (trivia c.rest)

end GalecAudit.Grammar
