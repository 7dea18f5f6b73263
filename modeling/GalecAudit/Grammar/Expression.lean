import GalecAudit.Grammar.Parser
import GalecAudit.Source.Tree

/-!
# The grammar of expressions

Seven precedence levels of binary operators, each read from left to right, prefix operators that bind
tighter than all of them, and the atoms. Each parser takes the parser of whole expressions as an
argument; `expression` closes the circle.
-/
namespace GalecAudit.Grammar

open Source Grammar.Parser

/-- A reserved word that is a rule of its own. -/
def reserved (rule : Rule) (word : String) : Parser Unit :=
  (fun _ => ()) <$> token rule (Scanner.word word)

def ident : Parser String := token .ident Lexeme.ident

def name : Parser String := token .quotedName Lexeme.quotedName <|> ident

def kwIf : Parser Unit := reserved .kwIf "if"
def kwThen : Parser Unit := reserved .kwThen "then"
def kwElseif : Parser Unit := reserved .kwElseif "elseif"
def kwElse : Parser Unit := reserved .kwElse "else"
def kwSelf : Parser Unit := reserved .kwSelf "self"
def kwSize : Parser Unit := reserved .kwSize "size"

def opOr : Parser BinaryOperator := symbol .opOr [(.or, Scanner.word "or")]

def opAnd : Parser BinaryOperator := symbol .opAnd [(.and, Scanner.word "and")]

def opEquality : Parser BinaryOperator :=
  symbol .opEquality [(.equal, Scanner.text "=="), (.notEqual, Scanner.text "<>")]

/-- A `<` that begins `<>` is no relational operator. -/
def opRelational : Parser BinaryOperator :=
  symbol .opRelational
    [(.lessEqual, Scanner.text "<="), (.greaterEqual, Scanner.text ">="),
     (.less, (Scanner.text "<").notBefore (· == '>')), (.greater, Scanner.text ">")]

def opAdditive : Parser BinaryOperator :=
  symbol .opAdditive [(.add, Scanner.text "+"), (.subtract, Scanner.text "-")]

def opMultiplicative : Parser BinaryOperator :=
  symbol .opMultiplicative [(.multiply, Scanner.text "*"), (.divide, Scanner.text "/")]

def opPower : Parser BinaryOperator := symbol .opPower [(.power, Scanner.text "^")]

def opUnary : Parser UnaryOperator :=
  symbol .opUnary [(.negate, Scanner.text "-"), (.not, Scanner.word "not")]

section

variable (expr : Parser Expr)

def subscripts : Parser (List Expr) :=
  rule .subscripts (literal "[" *> separated expr (literal ",") <* literal "]")

def referenceSegment : Parser (Segment Expr) :=
  rule .referenceSegment
    ((fun name subscripts => ⟨name, subscripts.getD []⟩) <$> name <*> optional (subscripts expr))

def stateReference : Parser (Nat → Access Expr) :=
  rule .stateReference
    ((fun segments line => ⟨true, segments, line⟩) <$>
      (kwSelf *> literal "." *> separated (referenceSegment expr) (literal ".")))

def localReference : Parser (Nat → Access Expr) :=
  rule .localReference ((fun segment line => ⟨false, [segment], line⟩) <$> referenceSegment expr)

def reference : Parser (Access Expr) :=
  rule .reference (located (stateReference expr <|> localReference expr))

def constant : Parser Expr :=
  rule .constant <| located <|
    (Expr.literal .boolean <$> token .booleanLiteral (Scanner.wordOf ["true", "false"])) <|>
    (Expr.literal .real <$> token .realLiteral Lexeme.real) <|>
    (Expr.literal .integer <$> token .integerLiteral Lexeme.integer)

def functionCall : Parser (Source.Call Expr) :=
  rule .functionCall <| located <|
    (fun name args line => ⟨name, args.getD [], line⟩) <$>
      name <* literal "(" <*> optional (separated expr (literal ",")) <* literal ")"

def sizeQuery : Parser Expr :=
  rule .sizeQuery <| located <|
    Expr.size <$> (kwSize *> literal "(" *> reference expr) <* literal "," <*> expr <* literal ")"

def arrayConstructor : Parser Expr :=
  rule .arrayConstructor <| located <| quoted <|
    Expr.array <$> (literal "\x7b" *> separated expr (literal ",") <* literal "\x7d")

def parenthesized : Parser Expr :=
  rule .parenthesized <| located <| Expr.paren <$> (literal "(" *> expr <* literal ")")

def elseifExpression : Parser (Expr × Expr) :=
  rule .elseifExpression (Prod.mk <$> (kwElseif *> expr) <* kwThen <*> expr)

def ifExpression : Parser Expr :=
  rule .ifExpression <| located <|
    Expr.conditional <$> (kwIf *> expr) <* kwThen <*> expr <*> many (elseifExpression expr) <*
      kwElse <*> expr

def atom : Parser Expr :=
  ifExpression expr <|> parenthesized expr <|> arrayConstructor expr <|> sizeQuery expr <|>
    (Expr.call <$> functionCall expr) <|> constant <|> (Expr.access <$> reference expr)

def unaryExpression : Parser Expr :=
  rule .unaryExpression <| located <| Expr.unary <$> opUnary <*> atom expr

def primary : Parser Expr := unaryExpression expr <|> atom expr

end

/-- A chain of operands. One operand alone stands for itself. -/
def chained (first : Expr) (rest : List (BinaryOperator × Expr)) (line : Nat) : Expr :=
  if rest.isEmpty then first else .chain first rest line

/-- One precedence level. -/
def level (name : Rule) (operand : Parser Expr) (operator : Parser BinaryOperator) : Parser Expr :=
  rule name <| located <|
    chained <$> operand <*> many (Prod.mk <$> operator <*> operand)

/-- An expression whose parts are read by a given parser. -/
def expressionOf (expr : Parser Expr) : Parser Expr :=
  let power := level .powerExpression (primary expr) opPower
  let multiplicative := level .multiplicativeExpression power opMultiplicative
  let additive := level .additiveExpression multiplicative opAdditive
  let relational := level .relationalExpression additive opRelational
  let equality := level .equalityExpression relational opEquality
  let conjunction := level .andExpression equality opAnd
  rule .expression (level .orExpression conjunction opOr)

def expression : Parser Expr := fix expressionOf

/-- An expression that is a whole text. -/
def standaloneExpression : Parser Expr :=
  rule .standaloneExpression (nothing *> expression <* endOfInput)

end GalecAudit.Grammar
