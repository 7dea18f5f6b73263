/-!
# Shortest decimals

The shortest decimal that reads back as a given binary number of 53 bits, and of those the nearest. All
arithmetic is exact.
-/
namespace GalecAudit

/-- The number `digits · 10 ^ exponent`. -/
structure Decimal where
  digits : Nat
  exponent : Int
deriving DecidableEq, Repr, Inhabited

namespace Decimal

/-- A positive number `significand · 2 ^ exponent`, and whether the numbers just below it lie twice as
close as those above. -/
structure Binary where
  significand : Nat
  exponent : Int
  isPower : Bool
deriving DecidableEq, Repr, Inhabited

/-- The number with the given encoding in 64 bits, of which the sign is not looked at. -/
def Binary.ofBits (bits : Nat) : Binary :=
  let fraction := bits % Nat.pow 2 52
  let field := bits / Nat.pow 2 52 % Nat.pow 2 11
  if field = 0 then ⟨fraction, -1074, false⟩
  else ⟨Nat.pow 2 52 + fraction, (field : Int) - 1075, fraction == 0 && decide (1 < field)⟩

/-- A fraction with a positive denominator. -/
structure Ratio where
  num : Nat
  den : Nat

/-- The number `n · 2 ^ twos / 10 ^ tens`. -/
def scaled (n : Nat) (twos tens : Int) : Ratio :=
  ⟨n * Nat.pow 2 twos.toNat * Nat.pow 10 (-tens).toNat,
    Nat.pow 2 (-twos).toNat * Nat.pow 10 tens.toNat⟩

/-- Whether a multiple `d` of `10 ^ tens` is read back as the number: it lies between the midpoints to
the neighbours, which belong to numbers with an even significand. -/
def readsBack (b : Binary) (tens : Int) (d : Nat) : Bool :=
  let low := scaled (4 * b.significand - (if b.isPower then 1 else 2)) (b.exponent - 2) tens
  let high := scaled (4 * b.significand + 2) (b.exponent - 2) tens
  if b.significand % 2 = 0 then
    decide (low.num ≤ d * low.den ∧ d * high.den ≤ high.num)
  else decide (low.num < d * low.den ∧ d * high.den < high.num)

/-- The multiple of `10 ^ tens` that stands for the number, if one reads back: of the two neighbours of
the number the nearer one, and the even one of two that are equally near. -/
def onGrid? (b : Binary) (tens : Int) : Option Nat :=
  let r := scaled b.significand b.exponent tens
  let below := r.num / r.den
  let above := below + 1
  match readsBack b tens below, readsBack b tens above with
  | true, true =>
    let twice := 2 * (r.num % r.den)
    if twice < r.den ∨ twice = r.den ∧ below % 2 = 0 then some below else some above
  | true, false => some below
  | false, true => some above
  | false, false => none

/-- The first of `steps` grids, each ten times finer than the one before, with a decimal that reads
back. -/
def coarsest (b : Binary) : Nat → Int → Decimal
  | 0, tens => ⟨0, tens⟩
  | steps + 1, tens =>
    match onGrid? b tens with
    | some d => if d = 0 then coarsest b steps (tens - 1) else ⟨d, tens⟩
    | none => coarsest b steps (tens - 1)

/-- The shortest decimal of a positive number. Grids from that of `10 ^ 309` to that of `10 ^ -324` hold
those of all numbers of 64 bits. -/
def shortest (b : Binary) : Decimal := coarsest b 640 309

end Decimal
end GalecAudit
