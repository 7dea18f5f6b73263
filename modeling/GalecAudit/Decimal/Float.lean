import GalecAudit.Decimal.Shortest

/-!
# Decimals of floating-point numbers

A number in decimal notation is read as a product or quotient of two floating-point numbers, and a
floating-point number is written with the fewest digits that read back.
-/
namespace GalecAudit.Decimal

/-- The largest power of ten that a floating-point number comes close to. -/
def maxPower : Nat := 308

def powerOfTen (n : Nat) : Float := Float.ofScientific 1 false n

/-- Divides by a power of ten, in steps where the power is no floating-point number. A number that has
become zero stays so, and `steps` bounds how often that is not yet so. -/
def divideByPower : Nat → Float → Nat → Float
  | 0, f, _ => f
  | steps + 1, f, n =>
    if n ≤ maxPower then f / powerOfTen n
    else if f == 0 then f
    else divideByPower steps (f / powerOfTen maxPower) (n - maxPower)

/-- The number `significand · 10 ^ exponent`, unless it is too large. It is rounded when the significand
is taken and when it is scaled, so that it need not be the nearest one. -/
def toFloat? (significand : Nat) (exponent : Int) : Option Float :=
  let f := Float.ofNat significand
  match exponent with
  | .ofNat n =>
    if n ≤ maxPower then
      let product := f * powerOfTen n
      if product.isInf then none else some product
    else if f == 0 then some f
    else none
  | .negSucc n => some (divideByPower 4 f (n + 1))

def zeros (n : Nat) : String := String.ofList (List.replicate n '0')

/-- An exponent, with its sign in any case. -/
def exponentText (n : Int) : String := if n < 0 then toString n else "+" ++ toString n

/-- The text of a positive decimal. It is positional where the point stands close enough to the digits,
and then has a digit on both sides of the point. -/
def text (d : Decimal) : String :=
  let digits := toString d.digits
  let length : Int := digits.length
  let point := length + d.exponent
  if 0 ≤ d.exponent ∧ point ≤ 16 then digits ++ zeros d.exponent.toNat ++ ".0"
  else if 0 < point ∧ point ≤ 16 then
    String.ofList (digits.toList.take point.toNat) ++ "." ++
      String.ofList (digits.toList.drop point.toNat)
  else if -5 < point ∧ point ≤ 0 then "0." ++ zeros (-point).toNat ++ digits
  else
    let fraction := String.ofList (digits.toList.drop 1)
    let mantissa := String.ofList (digits.toList.take 1) ++
      if fraction.isEmpty then "" else "." ++ fraction
    mantissa ++ "e" ++ exponentText (point - 1)

/-- The text of a finite number. -/
def floatText (f : Float) : String :=
  let bits := f.toBits.toNat
  let sign := if Nat.pow 2 63 ≤ bits then "-" else ""
  let magnitude := bits % Nat.pow 2 63
  sign ++ if magnitude = 0 then "0.0" else (shortest (.ofBits magnitude)).text

end GalecAudit.Decimal
