/-!
# Paths

Paths are texts in which slashes separate names. They are joined and cut as texts: nothing is looked up,
and nothing but what is cut off changes.
-/
namespace GalecAudit.Path

def isAbsolute (path : List Char) : Bool := ['/'].isPrefixOf path

/-- The second path seen from the first one. An absolute path is the same from everywhere. -/
def joinChars (base path : List Char) : List Char :=
  if isAbsolute path then path
  else if base.isEmpty || base.getLast? == some '/' then base ++ path
  else base ++ '/' :: path

def join (base path : String) : String := String.ofList (joinChars base.toList path.toList)

/-- The names between the slashes of a path, empty ones included. -/
def segments : List Char → List (List Char)
  | [] => [[]]
  | c :: rest =>
    if c = '/' then [] :: segments rest
    else
      match segments rest with
      | first :: others => (c :: first) :: others
      | [] => [[c]]

/-- The path with the given names between its slashes. -/
def ofSegments (names : List (List Char)) : List Char := ['/'].intercalate names

/-- Names that lead nowhere else. -/
def isIdle (name : List Char) : Bool := name == [] || name == ['.']

/-- What a path begins with before any name: the slash of an absolute path, or a dot that stands for
the current directory. -/
def anchorLength : List Char → Nat
  | ['.'] => 1
  | '.' :: '/' :: _ => 1
  | '/' :: _ => 1
  | _ => 0

/-- The directory of a path without its last name, with the slashes and idle names before and after that
name. A path without a name has a directory only where it is a dot. -/
def parentChars? (path : List Char) : Option (List Char) :=
  let anchor := path.take (anchorLength path)
  let names := (segments (path.drop anchor.length)).reverse.dropWhile isIdle
  match names with
  | _ :: outer => some (anchor ++ ofSegments (outer.dropWhile isIdle).reverse)
  | [] => if anchor = ['.'] then some [] else none

def parent? (path : String) : Option String := (parentChars? path.toList).map String.ofList

end GalecAudit.Path
