/-!
# The fewest digits that read back

A binary floating-point number stands for every real number that rounds to it. Among the decimal
numbers of that interval this module picks the one with the fewest digits, and of those the one
nearest to the exact value. All comparisons are between natural numbers, so nothing is rounded on
the way.

## Main definitions

* `Decimal` : a decimal number `digits · 10 ^ exponent`.
* `Binary` : a positive number `significand · 2 ^ exponent` with the interval that rounds to it.
* `Binary.shortest` : the shortest decimal of that interval.
-/

namespace Blockscript

/-- The decimal number `digits · 10 ^ exponent`. -/
structure Decimal where
  /-- The digits, read as one whole number. -/
  digits : Nat
  /-- The power of ten by which they are scaled. -/
  exponent : Int
deriving DecidableEq, Repr

/-- A positive number `significand · 2 ^ exponent` as a floating-point format holds it. -/
structure Binary where
  /-- The whole number that is scaled. -/
  significand : Nat
  /-- The power of two by which it is scaled. -/
  exponent : Int
  /-- Whether the next smaller number is only half as far away as the next larger one. -/
  narrowBelow : Bool
deriving DecidableEq, Repr

namespace Binary

/-- Decodes the exponent and fraction fields of a finite positive double. -/
def ofFields (exponent fraction : Nat) : Binary :=
  if exponent = 0 then ⟨fraction, -1074, false⟩
  else ⟨fraction + Nat.pow 2 52, (exponent : Int) - 1075, fraction = 0 && exponent > 1⟩

/-- A quarter of the number's unit in the last place is `scale.1 / scale.2`. -/
def scale (x : Binary) : Nat × Nat :=
  (Nat.pow 2 (x.exponent - 2).toNat, Nat.pow 2 (2 - x.exponent).toNat)

/-- The exact value as a fraction, counted in quarters of a unit. -/
def quarters (x : Binary) : Nat :=
  4 * x.significand

/-- The lower end of the interval, in quarters of a unit. -/
def lower (x : Binary) : Nat :=
  x.quarters - (if x.narrowBelow then 1 else 2)

/-- The upper end of the interval, in quarters of a unit. -/
def upper (x : Binary) : Nat :=
  x.quarters + 2

/-- The two numbers of which `n · 10 ^ e` and `q` quarters of a unit are the same multiple, so
that comparing them compares the two values. -/
def align (x : Binary) (n : Nat) (e : Int) (q : Nat) : Nat × Nat :=
  (n * Nat.pow 10 e.toNat * x.scale.2, q * x.scale.1 * Nat.pow 10 (-e).toNat)

/-- Whether `n · 10 ^ e` rounds to the number. The ends of the interval do so exactly if the
significand is even. -/
def contains (x : Binary) (n : Nat) (e : Int) : Bool :=
  let (a, lo) := x.align n e x.lower
  let (b, hi) := x.align n e x.upper
  if x.significand % 2 = 0 then lo ≤ a && b ≤ hi else lo < a && b < hi

/-- The position of the decimal point: the value lies from `10 ^ (point - 1)` up to, but not
including, `10 ^ point`. -/
def point (x : Binary) : Int :=
  let above := (Nat.toDigits 10 (x.quarters * x.scale.1)).length
  let below := (Nat.toDigits 10 x.scale.2).length
  let p := (above : Int) - below
  let (a, b) := x.align 1 p x.quarters
  if a ≤ b then p + 1 else p

/-- The multiple of `10 ^ e` nearest to the value, and the upper one of two equally near. -/
def nearest (x : Binary) (e : Int) : Nat :=
  let (unit, value) := x.align 1 e x.quarters
  (2 * value + unit) / (2 * unit)

/-- The multiple of `10 ^ e` that rounds to the number, if there is one. Only the two neighbours of
the value can do so, and if both do it is the nearer one. -/
def onGrid? (x : Binary) (e : Int) : Option Nat :=
  let (unit, value) := x.align 1 e x.quarters
  let n := value / unit
  match x.contains n e, x.contains (n + 1) e with
  | true, true => some (x.nearest e)
  | true, false => some n
  | false, true => some (n + 1)
  | false, false => none

/-- The shortest decimal that rounds to the number. The grids of one to sixteen digits are tried
in turn; seventeen digits always suffice, so the last grid needs no test. -/
def shortest (x : Binary) : Decimal :=
  let grid (k : Nat) : Int := x.point - k
  let hit := (List.range 16).findSome? fun k =>
    (x.onGrid? (grid (k + 1))).map fun n => Decimal.mk n (grid (k + 1))
  hit.getD ⟨x.nearest (grid 17), grid 17⟩

end Binary

end Blockscript
