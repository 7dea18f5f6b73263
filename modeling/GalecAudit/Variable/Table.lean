import Std.Data.TreeMap
import GalecAudit.Variable.Entry

/-!
# Tables of variables

One table holds the variables of one representation under their names, in the order of the code
points of the names. A later entry for a name replaces the earlier one.
-/
namespace GalecAudit

/-- How arrays are entered: as a whole and element by element, or as a whole only. -/
inductive TableMode where
  | element
  | aggregate
deriving DecidableEq, Repr, Inhabited

structure VariableTable where
  entries : Std.TreeMap String Entry := {}

namespace VariableTable

def empty : VariableTable := {}

instance : Inhabited VariableTable := ⟨empty⟩

def get? (table : VariableTable) (name : String) : Option Entry := table.entries[name]?

def contains (table : VariableTable) (name : String) : Bool := table.entries.contains name

def insert (table : VariableTable) (name : String) (entry : Entry) : VariableTable :=
  ⟨table.entries.insert name entry⟩

def size (table : VariableTable) : Nat := table.entries.size

def isEmpty (table : VariableTable) : Bool := table.entries.isEmpty

/-- The names and entries in the order of the names. -/
def toList (table : VariableTable) : List (String × Entry) := table.entries.toList

/-- The entries of scalars and of whole arrays. -/
def declared (table : VariableTable) : List (String × Entry) :=
  table.toList.filter fun (_, entry) => !entry.isElement

def insertMany (table : VariableTable) (entries : List (String × Entry)) : VariableTable :=
  entries.foldl (fun table (name, entry) => table.insert name entry) table

/-- Enters a variable, an array also element by element where the mode asks for it. -/
def declare (table : VariableTable) (mode : TableMode) (name : String) (entry : Entry) :
    VariableTable :=
  let elements := match mode with
    | .element => (elementKeys name entry.dimensions).map fun (key, index) => (key, entry.atIndex index)
    | .aggregate => []
  (table.insertMany elements).insert name entry

/-- Adds every entry of another table, which replaces entries of the same name. -/
def union (table other : VariableTable) : VariableTable := table.insertMany other.toList

end VariableTable
end GalecAudit
