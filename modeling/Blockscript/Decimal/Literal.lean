/-!
# Number literals

The value of a run of digits, and of two runs around a decimal point.

## Main definitions

* `Decimal.ofDigits` : the natural number that a run of digits denotes.
* `Decimal.int?` : the 64-bit integer that a run of digits denotes, if it fits.
* `Decimal.float` : the floating-point number nearest to a literal with a decimal point.
-/

namespace Blockscript.Decimal

/-- The value of one decimal digit. -/
def digitValue (c : Char) : Nat :=
  c.toNat - '0'.toNat

/-- The natural number that a run of digits denotes. -/
def ofDigits (cs : List Char) : Nat :=
  cs.foldl (fun n c => 10 * n + digitValue c) 0

/-- The 64-bit integer that a run of digits denotes. There is none if it is too large. -/
def int? (cs : List Char) : Option Int64 :=
  let n := ofDigits cs
  if n < Nat.pow 2 63 then some (Int64.ofNat n) else none

/-- The floating-point number nearest to a literal made of digits, a point and digits. -/
def float (cs : List Char) : Float :=
  let whole := cs.takeWhile (· != '.')
  let fraction := (cs.dropWhile (· != '.')).drop 1
  Float.ofScientific (ofDigits (whole ++ fraction)) true fraction.length

end Blockscript.Decimal
