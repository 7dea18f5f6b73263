/-!
# Blank characters

The characters with the Unicode property `White_Space`, and the removal of blanks from the ends of a
text or from all of it.
-/
namespace GalecAudit.Text

/-- The code points with the property `White_Space`, as closed intervals in increasing order. -/
def blankRanges : List (Nat × Nat) :=
  [(0x09, 0x0D), (0x20, 0x20), (0x85, 0x85), (0xA0, 0xA0), (0x1680, 0x1680), (0x2000, 0x200A),
   (0x2028, 0x2029), (0x202F, 0x202F), (0x205F, 0x205F), (0x3000, 0x3000)]

def isBlank (c : Char) : Bool :=
  blankRanges.any fun (low, high) => decide (low ≤ c.toNat ∧ c.toNat ≤ high)

def trimStart (cs : List Char) : List Char := cs.dropWhile isBlank

def trimEnd (cs : List Char) : List Char := (cs.reverse.dropWhile isBlank).reverse

/-- Removes the blanks before and after a text, and none inside it. -/
def trim (s : String) : String := String.ofList (trimEnd (trimStart s.toList))

/-- Removes every blank of a text. -/
def squeeze (s : String) : String := String.ofList (s.toList.filter fun c => !isBlank c)

end GalecAudit.Text
