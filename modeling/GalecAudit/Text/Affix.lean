/-!
# Affixes

The part of a text between a fixed beginning and a fixed end.
-/
namespace GalecAudit.Text

/-- What follows a fixed beginning. -/
def after? (lead s : List Char) : Option (List Char) :=
  if lead.isPrefixOf s then some (s.drop lead.length) else none

/-- What precedes a fixed end. -/
def before? (tail s : List Char) : Option (List Char) :=
  if tail.isSuffixOf s then some (s.take (s.length - tail.length)) else none

/-- What stands between a fixed beginning and a fixed end that do not overlap. -/
def between? (lead tail s : String) : Option String :=
  match after? lead.toList s.toList with
  | some rest => (before? tail.toList rest).map String.ofList
  | none => none

end GalecAudit.Text
