/-!
# Expressions

An expression is a literal, a reference to a name with the arguments that follow it, or two
expressions joined by an operator. Parentheses leave no trace.

## Main definitions

* `Op`, `Expr` : the operators and the expressions.
* `Expr.bareName?` : the name, if the expression is a reference without arguments.
* `Expr.spine` : the operands of a chain `a + b - c …` in the order in which they are joined.
-/

namespace Blockscript

/-- The binary operators. -/
inductive Op where
  | add
  | sub
  | mul
deriving DecidableEq, Repr

/-- How an operator is written. -/
def Op.symbol : Op → String
  | .add => "+"
  | .sub => "-"
  | .mul => "*"

/-- The expressions. -/
inductive Expr where
  /-- An integer literal. -/
  | int (value : Int64)
  /-- A literal with a decimal point. -/
  | float (value : Float)
  /-- A text literal, without its quotes. -/
  | str (value : String)
  /-- A reference to `name`, which is an invocation if the name stands for a block. -/
  | ref (name : String) (args : List Expr)
  /-- Two operands joined by an operator. -/
  | binary (op : Op) (lhs rhs : Expr)
deriving Inhabited

namespace Expr

/-- The name, if the expression is a reference without arguments. -/
def bareName? : Expr → Option String
  | .ref name [] => some name
  | _ => none

/-- The leftmost operand of `e`, and the operators with their right operands from left to right,
in front of `steps`. -/
def spineOnto (steps : List (Op × Expr)) : Expr → Expr × List (Op × Expr)
  | .binary op lhs rhs => spineOnto ((op, rhs) :: steps) lhs
  | e => (e, steps)

/-- The leftmost operand of a chain of operators, and the operators with their right operands
from left to right. An expression that joins nothing is its own leftmost operand. -/
def spine (e : Expr) : Expr × List (Op × Expr) :=
  spineOnto [] e

theorem forall_spineOnto {P Q : Expr → Prop}
    (hbinary : ∀ op lhs rhs, P (.binary op lhs rhs) → P lhs ∧ Q rhs) {steps : List (Op × Expr)}
    {e : Expr} (he : P e) (hsteps : ∀ step ∈ steps, Q step.2) :
    P (spineOnto steps e).1 ∧ (∀ op lhs rhs, (spineOnto steps e).1 ≠ .binary op lhs rhs) ∧
      ∀ step ∈ (spineOnto steps e).2, Q step.2 := by
  fun_induction spineOnto steps e with
  | case1 steps op lhs rhs ih =>
    obtain ⟨hlhs, hrhs⟩ := hbinary op lhs rhs he
    exact ih hlhs (List.forall_mem_cons.mpr ⟨hrhs, hsteps⟩)
  | case2 steps e hne => exact ⟨he, hne, hsteps⟩

/-- What passes from an expression to its left operand, and in a possibly different form to its
right one, passes to all operands of a chain. The leftmost of them joins nothing. -/
theorem forall_spine {P Q : Expr → Prop}
    (hbinary : ∀ op lhs rhs, P (.binary op lhs rhs) → P lhs ∧ Q rhs) {e : Expr} (he : P e) :
    P e.spine.1 ∧ (∀ op lhs rhs, e.spine.1 ≠ .binary op lhs rhs) ∧ ∀ step ∈ e.spine.2, Q step.2 :=
  forall_spineOnto hbinary he (by simp)

end Expr

end Blockscript
