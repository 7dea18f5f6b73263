/-!
# Bytes

How many bytes encode a text, and the first byte of a character.
-/
namespace GalecAudit.Text

/-- The number of bytes that encode a text. -/
def byteSize : List Char → Nat
  | [] => 0
  | c :: rest => c.utf8Size + byteSize rest

/-- The first byte of a character, shown as the character with that code. -/
def leadingByte (c : Char) : Char := Char.ofNat ((String.utf8EncodeChar c).headD 0).toNat

theorem byteSize_append (a b : List Char) : byteSize (a ++ b) = byteSize a + byteSize b := by
  induction a with
  | nil => simp [byteSize]
  | cons c a ih => simp [byteSize, ih, Nat.add_assoc]

end GalecAudit.Text
