import GalecAudit.Grammar.Expression

/-!
# The grammar of statements

Each parser of a statement with a body takes the parser of whole statements as an argument; `statement`
closes the circle.
-/
namespace GalecAudit.Grammar

open Source Grammar.Parser

def kwEnd : Parser Unit := reserved .kwEnd "end"
def kwSignal : Parser Unit := reserved .kwSignal "signal"
def kwFor : Parser Unit := reserved .kwFor "for"
def kwIn : Parser Unit := reserved .kwIn "in"
def kwLoop : Parser Unit := reserved .kwLoop "loop"
def kwLimit : Parser Unit := reserved .kwLimit "limit"

def singleAssignment : Parser Statement :=
  rule .singleAssignment <| located <|
    Statement.assign <$> reference expression <* literal ":=" <*> expression

def multiAssignment : Parser Statement :=
  rule .multiAssignment <| located <|
    Statement.assignMany <$> (literal "(" *> separated (reference expression) (literal ",")) <*
      literal ")" <* literal ":=" <*> functionCall expression

def callStatement : Parser Statement :=
  rule .callStatement <| located <| Statement.call <$> functionCall expression

def signalStatement : Parser Statement :=
  rule .signalStatement <| located <|
    Statement.signal <$> (kwSignal *> separated ident (literal ","))

/-- What a limitation names: a variable, or with `self` alone none. -/
def limitTarget : Parser (Option (Access Expr)) :=
  rule .limitTarget
    ((some <$> reference expression) <|> ((fun _ => none) <$> kwSelf))

def limitStatement : Parser Statement :=
  rule .limitStatement <| located <|
    (fun targets line => Statement.limit (targets.filterMap id) line) <$>
      (kwLimit *> separated limitTarget (literal ","))

def signalMembership : Parser (Bool × List String) :=
  rule .signalMembership
    ((fun negation members => (negation.isSome, members)) <$>
      optional (reserved .signalNegation "not") <* kwIn <*> separated ident (literal ","))

def signalCondition : Parser Source.Condition :=
  rule .signalCondition <| located <|
    (fun name membership fallback line =>
        let (negated, members) := membership.getD (false, [])
        Source.Condition.signal name negated members fallback line) <$>
      (kwSignal *> optional ident) <*> optional signalMembership <*>
        optional (opOr *> expression)

def condition : Parser Source.Condition :=
  rule .condition (signalCondition <|> (Source.Condition.expression <$> expression))

def loopIterator : Parser String := rule .loopIterator ident

/-- The iterator, the bounds and the text of a loop header. Of three bounds the second is the step. -/
def loopHeader : Parser (Option String × Bounds × String) :=
  rule .loopHeader <| quoted <|
    (fun iterator first second third text =>
        let bounds : Bounds := match third with
          | none => ⟨first, none, second⟩
          | some stop => ⟨first, some second, stop⟩
        (iterator, bounds, text)) <$>
      optional (loopIterator <* kwIn) <*> expression <* literal ":" <*> expression <*>
        optional (literal ":" *> expression)

section

variable (statement : Parser Statement)

def elseifBranch : Parser (Source.Condition × List Statement) :=
  rule .elseifBranch (Prod.mk <$> (kwElseif *> condition) <* kwThen <*> many statement)

def elseBranch : Parser (List Statement) := rule .elseBranch (kwElse *> many statement)

def ifStatement : Parser Statement :=
  rule .ifStatement
    ((fun first body others otherwise =>
        Statement.branch ((first, body) :: others) (otherwise.getD [])) <$>
      (kwIf *> condition) <* kwThen <*> many statement <*> many (elseifBranch statement) <*>
        optional (elseBranch statement) <* kwEnd <* kwIf)

def forStatement : Parser Statement :=
  rule .forStatement <| located <|
    (fun (iterator, bounds, header) body line =>
        Statement.loop iterator bounds header body line) <$>
      (kwFor *> loopHeader) <* kwLoop <*> many statement <* kwEnd <* kwFor

/-- A statement whose inner statements are read by a given parser. -/
def statementOf : Parser Statement :=
  rule .statement
    ((ifStatement statement <|> forStatement statement <|> signalStatement <|> limitStatement <|>
      multiAssignment <|> singleAssignment <|> callStatement) <* literal ";")

end

def statement : Parser Statement := fix statementOf

end GalecAudit.Grammar
