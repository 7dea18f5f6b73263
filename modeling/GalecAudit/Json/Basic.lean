/-!
# JSON values

Values whose objects keep the order of their members, and their indented text. All numbers that are
written are integers.
-/
namespace GalecAudit

inductive Json where
  | null
  | bool (b : Bool)
  | number (n : Int)
  | string (s : String)
  | array (items : List Json)
  | object (members : List (String × Json))
deriving Repr, Inhabited

namespace Json

/-- How a character is written inside a quoted text: quotes, backslashes and control characters are
escaped, and every other character stands for itself. -/
def escapeChar (c : Char) : List Char :=
  if c = '"' then ['\\', '"']
  else if c = '\\' then ['\\', '\\']
  else if c = '\n' then ['\\', 'n']
  else if c = '\r' then ['\\', 'r']
  else if c = '\t' then ['\\', 't']
  else if c = '\x08' then ['\\', 'b']
  else if c = '\x0c' then ['\\', 'f']
  else if c.toNat < 0x20 then
    ['\\', 'u', '0', '0', Nat.digitChar (c.toNat / 16), Nat.digitChar (c.toNat % 16)]
  else [c]

def quote (s : String) : String := String.ofList ('"' :: s.toList.flatMap escapeChar ++ ['"'])

/-- A new line with two blanks for each level of indentation. -/
def newline (depth : Nat) : String := "\n" ++ String.ofList (List.replicate (2 * depth) ' ')

mutual

/-- The text of a value with one member or item to a line. -/
def pretty (depth : Nat) : Json → String
  | null => "null"
  | bool b => if b then "true" else "false"
  | number n => toString n
  | string s => quote s
  | array [] => "[]"
  | array items => "[" ++ ",".intercalate (prettyItems (depth + 1) items) ++ newline depth ++ "]"
  | object [] => "\x7b\x7d"
  | object members =>
    "\x7b" ++ ",".intercalate (prettyMembers (depth + 1) members) ++ newline depth ++ "\x7d"

def prettyItems (depth : Nat) : List Json → List String
  | [] => []
  | item :: rest => (newline depth ++ item.pretty depth) :: prettyItems depth rest

def prettyMembers (depth : Nat) : List (String × Json) → List String
  | [] => []
  | (key, value) :: rest =>
    (newline depth ++ quote key ++ ": " ++ value.pretty depth) :: prettyMembers depth rest

end

/-- The text of a value. -/
def render (j : Json) : String := j.pretty 0

def ofNat (n : Nat) : Json := number n

def strings (names : List String) : Json := array (names.map string)

def nats (ns : List Nat) : Json := array (ns.map ofNat)

/-- A value that may be missing, where a missing one is written as null. -/
def orNull {α : Type} (encode : α → Json) : Option α → Json
  | some a => encode a
  | none => null

/-- A member that is left out where its value is missing. -/
def member? {α : Type} (key : String) (encode : α → Json) : Option α → List (String × Json)
  | some a => [(key, encode a)]
  | none => []

/-- A member that is left out where its list is empty. -/
def listMember {α : Type} (key : String) (encode : List α → Json) : List α → List (String × Json)
  | [] => []
  | items => [(key, encode items)]

end Json
end GalecAudit
