import GalecAudit.Text.Blank
import GalecAudit.Text.Bytes

/-!
# Offsets and lines

Places in a document are offsets that count the bytes of its encoded text. A line is one more than the
number of line feeds before an offset.
-/
namespace GalecAudit.Markup

open Text (byteSize)

/-- The line of an offset: one more than the number of line feeds before it. -/
def lineOf : List Char → Nat → Nat
  | [], _ => 1
  | c :: rest, offset =>
    if offset = 0 then 1
    else (if c = '\n' then 1 else 0) + lineOf rest (offset - c.utf8Size)

/-- The text from an offset on. No text begins inside a character. -/
def textFrom? : List Char → Nat → Option (List Char)
  | cs, 0 => some cs
  | [], _ + 1 => none
  | c :: rest, offset + 1 =>
    if c.utf8Size ≤ offset + 1 then textFrom? rest (offset + 1 - c.utf8Size) else none

/-- The first offset from the given one on at which no blank stands. -/
def afterBlanks (document : List Char) (offset : Nat) : Nat :=
  match textFrom? document offset with
  | some rest => offset + byteSize (rest.takeWhile Text.isBlank)
  | none => offset

/-- Behind a text that the document begins with stands what follows it. -/
theorem textFrom?_byteSize (a b : List Char) : textFrom? (a ++ b) (byteSize a) = some b := by
  induction a with
  | nil => simp [byteSize, textFrom?]
  | cons c a ih =>
    have hpos : 0 < c.utf8Size := c.utf8Size_pos
    have hsize : byteSize (c :: a) = c.utf8Size + byteSize a := rfl
    obtain ⟨n, hn⟩ : ∃ n, byteSize (c :: a) = n + 1 := ⟨byteSize (c :: a) - 1, by omega⟩
    have hle : c.utf8Size ≤ n + 1 := by omega
    have hrest : n + 1 - c.utf8Size = byteSize a := by omega
    rw [List.cons_append, hn, textFrom?, if_pos hle, hrest, ih]

/-- The line behind a text that the document begins with. -/
theorem lineOf_byteSize (a b : List Char) : lineOf (a ++ b) (byteSize a) = 1 + a.count '\n' := by
  induction a with
  | nil => cases b <;> simp [byteSize, lineOf]
  | cons c a ih =>
    have hpos : 0 < c.utf8Size := c.utf8Size_pos
    have hsize : byteSize (c :: a) = c.utf8Size + byteSize a := rfl
    have hne : ¬ byteSize (c :: a) = 0 := by omega
    have hrest : byteSize (c :: a) - c.utf8Size = byteSize a := by omega
    rw [List.cons_append, lineOf, if_neg hne, hrest, ih, List.count_cons]
    by_cases h : c = '\n'
    · simp [h]
      omega
    · simp [h]

end GalecAudit.Markup
