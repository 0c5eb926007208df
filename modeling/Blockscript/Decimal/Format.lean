import Blockscript.Decimal.Shortest

/-!
# Numbers as text

Whole numbers are written in plain decimal. A floating-point number is written with the fewest
digits that read back, either positionally or with an exponent; which of the two, and the words
for what is not a finite number, are the choice of a `Decimal.Format`.

## Main definitions

* `Decimal.Format` : the decisions of a textual form.
* `Decimal.Format.write` : a floating-point number in such a form.
* `Decimal.ofInt` : a whole number as text.
-/

namespace Blockscript.Decimal

/-- A whole number in plain decimal. -/
def ofInt (n : Int) : String :=
  String.ofList ((if n < 0 then ['-'] else []) ++ Nat.toDigits 10 n.natAbs)

/-- The decisions of a textual form of floating-point numbers. -/
structure Format where
  /-- The smallest power of ten of the first digit that is still written positionally. -/
  least : Int
  /-- The largest power of ten of the first digit that is still written positionally. -/
  greatest : Int
  /-- What stands for an infinite number, after its sign. -/
  infinity : String
  /-- What stands for a value that is no number. -/
  nan : String

/-- The digits without the zeros at their end, which are zeros of the number too. -/
def significantDigits (d : Decimal) : List Char :=
  ((Nat.toDigits 10 d.digits).reverse.dropWhile (· == '0')).reverse

/-- The power of ten of the first digit. -/
def leadingPower (d : Decimal) : Int :=
  d.exponent + (Nat.toDigits 10 d.digits).length - 1

/-- Digits whose first one stands for `10 ^ power`, with a decimal point and at least one digit on
each side of it. -/
def positional (ds : List Char) (power : Int) : List Char :=
  if power < 0 then
    ['0', '.'] ++ List.replicate (-power - 1).toNat '0' ++ ds
  else
    let whole := power.toNat + 1
    let fraction := ds.drop whole
    ds.take whole ++ List.replicate (whole - ds.length) '0' ++ ['.'] ++
      (if fraction.isEmpty then ['0'] else fraction)

/-- Digits whose first one stands for `10 ^ power`, with the point after that digit and the power
behind the mark. A single digit has no point. -/
def scientific (ds : List Char) (power : Int) : List Char :=
  ds.take 1 ++ (if ds.length ≤ 1 then [] else '.' :: ds.drop 1) ++ ['e'] ++ (ofInt power).toList

namespace Format

/-- A positive decimal in the given form. -/
def layout (form : Format) (d : Decimal) : List Char :=
  let power := d.leadingPower
  if form.least ≤ power && power ≤ form.greatest then positional d.significantDigits power
  else scientific d.significantDigits power

/-- A floating-point number in the given form. Zero keeps its sign and is written positionally. -/
def write (form : Format) (x : Float) : String :=
  let bits := x.toBits.toNat
  let sign := if bits / Nat.pow 2 63 = 1 then ['-'] else []
  let exponent := bits / Nat.pow 2 52 % Nat.pow 2 11
  let fraction := bits % Nat.pow 2 52
  if exponent = 2047 then
    if fraction = 0 then String.ofList (sign ++ form.infinity.toList) else form.nan
  else if exponent = 0 && fraction = 0 then String.ofList (sign ++ ['0', '.', '0'])
  else String.ofList (sign ++ form.layout (Binary.ofFields exponent fraction).shortest)

end Format

end Blockscript.Decimal
