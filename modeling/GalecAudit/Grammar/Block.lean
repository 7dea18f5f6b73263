import GalecAudit.Grammar.Statement

/-!
# The grammar of blocks

Declarations, routines and the block that holds them.
-/
namespace GalecAudit.Grammar

open Source Grammar.Parser

def kwBlock : Parser Unit := reserved .kwBlock "block"
def kwProtected : Parser Unit := reserved .kwProtected "protected"
def kwPublic : Parser Unit := reserved .kwPublic "public"
def kwRecord : Parser Unit := reserved .kwRecord "record"
def kwAlgorithm : Parser Unit := reserved .kwAlgorithm "algorithm"
def kwSignals : Parser Unit := reserved .kwSignals "signals"

def primitiveType : Parser PrimitiveType :=
  symbol .primitiveType
    [(.real, Scanner.word "Real"), (.integer, Scanner.word "Integer"),
     (.boolean, Scanner.word "Boolean")]

def dataFlowDirection : Parser Causality :=
  symbol .dataFlowDirection
    [(.input, Scanner.word "input"), (.output, Scanner.word "output"),
     (.parameter, Scanner.word "parameter"), (.constant, Scanner.word "constant")]

def parameterDirection : Parser Causality :=
  symbol .parameterDirection
    [(.input, Scanner.word "input"), (.output, Scanner.word "output")]

def routineKind : Parser RoutineKind :=
  symbol .functionKind
    [(.function, Scanner.word "function"), (.method, Scanner.word "method")]

/-- The name that closes a construct. -/
def endName : Parser EndName := located (EndName.mk <$> name)

def dimension : Parser Source.Dimension :=
  rule .dimension
    (((fun _ => .derived) <$> rule .derivedDimension (literal ":")) <|>
      quoted (Source.Dimension.sized <$> expression))

def dimensions : Parser (List Source.Dimension) :=
  rule .dimensions (literal "[" *> separated dimension (literal ",") <* literal "]")

/-- The text of a number with its sign, and with the trivia between them. -/
def signedNumber : Parser String :=
  rule .signedNumber <| quoted <|
    (fun _ _ text => text) <$> optional (rule .negative (literal "-")) <*>
      (token .realLiteral Lexeme.real <|> token .integerLiteral Lexeme.integer)

def rangeBound : Parser (Bound × String) :=
  rule .rangeBound
    (Prod.mk <$> symbol .boundKind [(.min, Scanner.word "min"), (.max, Scanner.word "max")] <*
      literal "=" <*> signedNumber)

def rangeSpecification : Parser (List (Bound × String)) :=
  rule .rangeSpecification (literal "(" *> separated rangeBound (literal ",") <* literal ")")

def recordType : Parser String := rule .recordType ident

def declaration : Parser Source.Declaration :=
  rule .variableDeclaration <| located <|
    Source.Declaration.mk <$>
      ((DeclaredType.primitive <$> primitiveType) <|> (DeclaredType.record <$> recordType)) <*>
      name <*> ((·.getD []) <$> optional dimensions) <*> optional rangeSpecification <* literal ";"

def stateEntityDeclaration : Parser (Causality × Source.Declaration) :=
  rule .stateEntityDeclaration (Prod.mk <$> dataFlowDirection <*> declaration)

def protectedVariable : Parser (Option Causality × Source.Declaration) :=
  rule .protectedVariable (Prod.mk <$> optional dataFlowDirection <*> declaration)

def recordDeclaration : Parser Record :=
  rule .recordDeclaration <| located <|
    Record.mk <$> (kwRecord *> name) <*> many protectedVariable <* kwEnd <*> endName <*
      literal ";"

def signalDeclaration : Parser (List Signal) :=
  rule .signalDeclaration
    (kwSignal *> separated (located (Signal.mk <$> ident)) (literal ",") <* literal ";")

def signalInterface : Parser (List String) :=
  rule .signalInterface (kwSignals *> separated ident (literal ",") <* literal ";")

def parameterDeclaration : Parser (Causality × Source.Declaration) :=
  rule .parameterDeclaration (Prod.mk <$> parameterDirection <*> declaration)

def localSection : Parser (List Source.Declaration) :=
  rule .localSection (kwProtected *> many declaration)

def routineDeclaration : Parser Source.Routine :=
  rule .functionDeclaration <| located <|
    Source.Routine.mk <$>
      routineKind <*> name <*> ((·.getD []) <$> optional signalInterface) <*>
      many parameterDeclaration <*> ((·.getD []) <$> optional localSection) <* kwAlgorithm <*>
      many statement <* kwEnd <*> endName <* literal ";"

def protectedItem : Parser ProtectedItem :=
  (ProtectedItem.record <$> recordDeclaration) <|> (ProtectedItem.signals <$> signalDeclaration) <|>
    (ProtectedItem.routine <$> routineDeclaration) <|>
    ((fun (causality, declaration) => .variable causality declaration) <$> protectedVariable)

def protectedSection : Parser (List ProtectedItem) := rule .protectedSection (many protectedItem)

def publicSection : Parser (List Source.Routine) :=
  rule .publicSection (many routineDeclaration)

def block : Parser Source.Block :=
  rule .block <| located <|
    Source.Block.mk <$>
      (kwBlock *> name) <*> many stateEntityDeclaration <* kwProtected <*> protectedSection <*
      kwPublic <*> publicSection <* kwEnd <*> endName <* literal ";"

/-- A block that is a whole text. -/
def algorithmCode : Parser Source.Block :=
  rule .algorithmCode (nothing *> block <* endOfInput)

end GalecAudit.Grammar
