import Blockscript.Decimal.Format
import Blockscript.Expr

/-!
# Values

Values are 64-bit integers, floating-point numbers and texts. Integers wrap around; an operation on
an integer and a floating-point number is carried out on floating-point numbers; the only operation
on texts is to join two of them.

## Main definitions

* `Value`, `Value.Ty` : the values and their types.
* `Value.text` : a value as it is printed.
* `Op.apply` : an operator on two values.
-/

namespace Blockscript

/-- The values. -/
inductive Value where
  | int (n : Int64)
  | float (x : Float)
  | str (s : String)
deriving DecidableEq, Inhabited

namespace Value

/-- The types of values. -/
inductive Ty where
  | int
  | float
  | str
deriving DecidableEq, Repr

/-- How messages call a type. -/
def Ty.name : Ty → String
  | .int => "Int"
  | .float => "Float"
  | .str => "Str"

/-- The type of a value. -/
def ty : Value → Ty
  | .int _ => .int
  | .float _ => .float
  | .str _ => .str

/-- Floating-point numbers always show a fraction or an exponent. They are positional from
`0.0001` up to, but not including, `10 ^ 16`. -/
def floatFormat : Decimal.Format :=
  ⟨-4, 15, "inf", "NaN"⟩

/-- A value as it is printed. -/
def text : Value → String
  | .int n => Decimal.ofInt n.toInt
  | .float x => floatFormat.write x
  | .str s => s

end Value

/-- An operator was applied to values of types that it does not take. -/
structure TypeMismatch where
  /-- The operator. -/
  op : Op
  /-- The type of the left operand. -/
  lhs : Value.Ty
  /-- The type of the right operand. -/
  rhs : Value.Ty
deriving DecidableEq, Repr

/-- The wording of a type error. -/
def TypeMismatch.message (e : TypeMismatch) : String :=
  "type mismatch: cannot apply `" ++ e.op.symbol ++ "` to " ++ e.lhs.name ++ " and " ++ e.rhs.name

namespace Op

/-- An operator on integers, which wraps around at 64 bits. -/
def onInts : Op → Int64 → Int64 → Int64
  | .add => (· + ·)
  | .sub => (· - ·)
  | .mul => (· * ·)

/-- An operator on floating-point numbers. -/
def onFloats : Op → Float → Float → Float
  | .add => (· + ·)
  | .sub => (· - ·)
  | .mul => (· * ·)

/-- An operator on two values. -/
def apply (op : Op) (lhs rhs : Value) : Except TypeMismatch Value :=
  match lhs, rhs with
  | .int m, .int n => .ok (.int (op.onInts m n))
  | .float x, .float y => .ok (.float (op.onFloats x y))
  | .int m, .float y => .ok (.float (op.onFloats m.toFloat y))
  | .float x, .int n => .ok (.float (op.onFloats x n.toFloat))
  | .str s, .str t => if op = .add then .ok (.str (s ++ t)) else .error ⟨op, .str, .str⟩
  | lhs, rhs => .error ⟨op, lhs.ty, rhs.ty⟩

end Op

end Blockscript
