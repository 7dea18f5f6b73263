import GalecAudit.Grammar.Rule
import GalecAudit.Grammar.Cursor
import GalecAudit.Grammar.Scanner

/-!
# Parsers

A parser reads a construct of the grammar at a cursor, or refuses. Choice is ordered and repetition
takes as much as it can. Between two items of a sequence and before each repetition trivia is skipped.

A parser can also read while it notes what a syntax error would list: the named rules that were refused
at the furthest place. That takes one pass over the text as well, and each parser carries the law that
it reads the same.
-/
namespace GalecAudit.Grammar

/-- The furthest place at which a named rule was refused, and the rules refused there. -/
structure Expected where
  offset : Nat := 0
  rules : List Rule := []
deriving DecidableEq, Repr, Inhabited

namespace Expected

/-- How many rules have been refused at a place. -/
def countAt (e : Expected) (offset : Nat) : Nat :=
  if offset = e.offset then e.rules.length else 0

/-- Notes the refusal of a rule at a place. `before` is the number of refusals there when the rule was
begun: a single refusal since then is more telling than the rule itself and stays, several are replaced
by the rule. Places behind the furthest one do not count. -/
def refuse (e : Expected) (rule : Rule) (offset before : Nat) : Expected :=
  if e.countAt offset = before + 1 then e
  else if offset = e.offset then { e with rules := e.rules.take before ++ [rule] }
  else if e.offset < offset then { offset, rules := [rule] }
  else e

end Expected

/-- Two ways to read a construct, which agree on what they read. -/
structure Parser (α : Type) where
  parse : Cursor → Option (α × Cursor)
  /-- Reads and notes the rules that are refused meanwhile. -/
  trace : Cursor → Expected → Option (α × Cursor) × Expected
  fst_trace : ∀ c e, (trace c e).1 = parse c

namespace Parser

variable {α β : Type}

/-- A parser without parts. `refusal` says what it notes where it refuses. -/
def leaf (read : Cursor → Option (α × Cursor)) (refusal : Cursor → Expected → Expected) :
    Parser α where
  parse := read
  trace c e :=
    let result := read c
    (result, if result.isSome then e else refusal c e)
  fst_trace _ _ := rfl

/-- What a parser without parts notes where it is a rule of its own. -/
def refusalOf (rule : Rule) (c : Cursor) (e : Expected) : Expected :=
  e.refuse rule c.offset (e.countAt c.offset)

/-- A parser whose result depends on what another one reads and from where. -/
def mapFrom (f : Cursor → α × Cursor → β × Cursor) (p : Parser α) : Parser β where
  parse c := (p.parse c).map (f c)
  trace c e :=
    let (result, refused) := p.trace c e
    (result.map (f c), refused)
  fst_trace c e := by simp only [p.fst_trace]

def map (f : α → β) (p : Parser α) : Parser β :=
  p.mapFrom fun _ (a, next) => (f a, next)

/-- Two parsers with trivia between them. -/
def seq (p : Parser (α → β)) (q : Parser α) : Parser β where
  parse c :=
    match p.parse c with
    | some (f, next) => (q.parse next.skip).map fun (a, last) => (f a, last)
    | none => none
  trace c e :=
    match p.trace c e with
    | (some (f, next), refused) =>
      let (result, refused) := q.trace next.skip refused
      (result.map fun (a, last) => (f a, last), refused)
    | (none, refused) => (none, refused)
  fst_trace c e := by
    rw [← p.fst_trace c e]
    rcases p.trace c e with ⟨_ | ⟨f, next⟩, refused⟩
    · rfl
    · simp only [q.fst_trace]

instance : Functor Parser where
  map := Parser.map

instance : Seq Parser where
  seq p q := Parser.seq p (q ())

instance : SeqLeft Parser where
  seqLeft p q := Parser.seq (p.map fun a _ => a) (q ())

instance : SeqRight Parser where
  seqRight p q := Parser.seq (p.map fun _ b => b) (q ())

/-- The first of two parsers that reads something. -/
def orElse (p q : Parser α) : Parser α where
  parse c :=
    match p.parse c with
    | some result => some result
    | none => q.parse c
  trace c e :=
    match p.trace c e with
    | (some result, refused) => (some result, refused)
    | (none, refused) => q.trace c refused
  fst_trace c e := by
    rw [← p.fst_trace c e]
    rcases p.trace c e with ⟨_ | result, refused⟩
    · exact q.fst_trace c refused
    · rfl

instance : OrElse (Parser α) where
  orElse p q := Parser.orElse p (q ())

/-- A construct that may be missing. -/
def optional (p : Parser α) : Parser (Option α) where
  parse c :=
    match p.parse c with
    | some (a, next) => some (some a, next)
    | none => some (none, c)
  trace c e :=
    match p.trace c e with
    | (some (a, next), refused) => (some (some a, next), refused)
    | (none, refused) => (some (none, c), refused)
  fst_trace c e := by
    rw [← p.fst_trace c e]
    rcases p.trace c e with ⟨_ | ⟨a, next⟩, refused⟩ <;> rfl

/-- What a repetition reads. It stops before the trivia that precedes the first refusal. -/
def readMany (p : Parser α) (c : Cursor) : List α × Cursor :=
  match p.parse c.skip with
  | some (a, next) =>
    if next.rest.length < c.rest.length then
      let (rest, last) := readMany p next
      (a :: rest, last)
    else ([a], next)
  | none => ([], c)
termination_by c.rest.length

/-- A repetition that notes refusals. -/
def traceMany (p : Parser α) (c : Cursor) (e : Expected) : (List α × Cursor) × Expected :=
  match p.trace c.skip e with
  | (some (a, next), refused) =>
    if next.rest.length < c.rest.length then
      let ((rest, last), refused) := traceMany p next refused
      ((a :: rest, last), refused)
    else (([a], next), refused)
  | (none, refused) => (([], c), refused)
termination_by c.rest.length

/-- A repetition reads the same whether refusals are noted or not. -/
theorem fst_traceMany (p : Parser α) (c : Cursor) (e : Expected) :
    (p.traceMany c e).1 = p.readMany c := by
  fun_induction traceMany p c e with
  | case1 c e a next refused h hlt rest last refused' hrest ih =>
    rw [readMany, ← p.fst_trace c.skip e, h]
    simp only [hlt, if_true, ← ih, hrest]
  | case2 c e a next refused h hlt =>
    rw [readMany, ← p.fst_trace c.skip e, h]
    simp only [hlt, if_false]
  | case3 c e refused h => rw [readMany, ← p.fst_trace c.skip e, h]

/-- A construct that may be repeated or missing. -/
def many (p : Parser α) : Parser (List α) where
  parse c := some (p.readMany c)
  trace c e :=
    let (result, refused) := p.traceMany c e
    (some result, refused)
  fst_trace c e := congrArg some (p.fst_traceMany c e)

/-- One construct or several with a separator between each two. -/
def separated (p : Parser α) (separator : Parser Unit) : Parser (List α) :=
  List.cons <$> p <*> many (separator *> p)

/-- A fixed text that a syntax error does not list. -/
def literal (s : String) : Parser Unit :=
  leaf (fun c => (Scanner.text s c.rest).map fun lexeme => ((), c.advance lexeme)) fun _ e => e

/-- A lexeme that is a rule of its own. -/
def token (rule : Rule) (scan : Scanner) : Parser String :=
  leaf (fun c => (scan c.rest).map fun lexeme => (String.ofList lexeme, c.advance lexeme))
    (refusalOf rule)

/-- The first of several spellings that fits, with what it stands for. -/
def firstSpelling (spellings : List (α × Scanner)) (cs : List Char) : Option (α × List Char) :=
  match spellings with
  | [] => none
  | (a, scan) :: rest =>
    match scan cs with
    | some lexeme => some (a, lexeme)
    | none => firstSpelling rest cs

/-- A lexeme with several spellings that is a rule of its own. -/
def symbol (rule : Rule) (spellings : List (α × Scanner)) : Parser α :=
  leaf (fun c => (firstSpelling spellings c.rest).map fun (a, lexeme) => (a, c.advance lexeme))
    (refusalOf rule)

/-- Nothing, anywhere. -/
def nothing : Parser Unit := leaf (fun c => some ((), c)) fun _ e => e

/-- Nothing, where the text ends. -/
def endOfInput : Parser Unit :=
  leaf (fun c => if c.rest.isEmpty then some ((), c) else none) (refusalOf .endOfInput)

/-- A construct that is a rule of its own. -/
def rule (name : Rule) (p : Parser α) : Parser α where
  parse := p.parse
  trace c e :=
    let (result, refused) := p.trace c e
    (result, if result.isSome then refused
      else refused.refuse name c.offset (e.countAt c.offset))
  fst_trace := p.fst_trace

/-- The construct together with the line on which it starts. -/
def located (p : Parser (Nat → α)) : Parser α :=
  p.mapFrom fun c (f, next) => (f c.line, next)

/-- The construct together with its text, which may end in trivia. -/
def quoted (p : Parser (String → α)) : Parser α :=
  p.mapFrom fun c (f, next) => (f (c.textTo next), next)

/-- A parser that is made when it is first needed. -/
def delay (p : Unit → Parser α) : Parser α where
  parse c := (p ()).parse c
  trace c e := (p ()).trace c e
  fst_trace c e := (p ()).fst_trace c e

/-- A parser whose construct may contain the construct itself up to the given depth. -/
def nested (f : Parser α → Parser α) : Nat → Parser α
  | 0 => leaf (fun _ => none) fun _ e => e
  | depth + 1 => f (delay fun _ => nested f depth)

/-- A parser whose construct may contain the construct itself, after at least one character of its own.
The nesting is then never deeper than the text is long. -/
def fix (f : Parser α → Parser α) : Parser α where
  parse c := (nested f (c.rest.length + 1)).parse c
  trace c e := (nested f (c.rest.length + 1)).trace c e
  fst_trace c e := (nested f (c.rest.length + 1)).fst_trace c e

end Parser
end GalecAudit.Grammar
