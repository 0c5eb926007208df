import Blockscript.Proofs.OperatorTrees
import Mathlib.Data.Int.ModEq

/-!
# Integers that wrap around

Integers have 64 bits and wrap around, at every operator. So a tree of operators over integers may
wrap around many times before its value is found. This module says what that value is: the one
integer of 64 bits that is congruent to the exact value modulo `2 ^ 64`. It does not matter where
the tree has wrapped around. In particular the value is exact whenever the exact value fits, however
large the intermediate results are.

## Main definitions

* `Op.onIntegers`, `OpTree.exactValue` : operators on integers of any size, and the exact value of a
  tree.
* `OpTree.wrapped` : the value of a tree that wraps around at every operator.

## Main results

* `Op.onInts_modEq`, `OpTree.wrapped_modEq` : wrapping around is a congruence, for one operator and
  for trees.
* `eq_of_modEq_of_fits` : congruent integers of 64 bits are equal.
* `Expr.evalWithin_integers` : the headline, for expressions over integers.
-/

namespace Blockscript

/-- An operator on integers of any size. -/
def Op.onIntegers : Op → Int → Int → Int
  | .add => (· + ·)
  | .sub => (· - ·)
  | .mul => (· * ·)

namespace OpTree

/-- The exact value of a tree of integers. -/
def exactValue : OpTree Int64 → Int
  | .leaf n => n.toInt
  | .node op lhs rhs => op.onIntegers lhs.exactValue rhs.exactValue

/-- The value of a tree of integers that wraps around at every operator. -/
def wrapped : OpTree Int64 → Int64
  | .leaf n => n
  | .node op lhs rhs => op.onInts lhs.wrapped rhs.wrapped

end OpTree

/-! ### Congruence modulo `2 ^ 64` -/

/-- Congruent integers that fit into 64 bits are equal: the range is as long as the modulus. -/
theorem eq_of_modEq_of_fits {a b : Int} (h : a ≡ b [ZMOD 2 ^ 64]) (ha : -2 ^ 63 ≤ a)
    (ha' : a < 2 ^ 63) (hb : -2 ^ 63 ≤ b) (hb' : b < 2 ^ 63) : a = b := by
  have hmod : a % 2 ^ 64 = b % 2 ^ 64 := h
  omega

/-- An operator wraps around to what is congruent to its exact value. -/
theorem Op.onInts_modEq (op : Op) (m n : Int64) :
    (op.onInts m n).toInt ≡ op.onIntegers m.toInt n.toInt [ZMOD 2 ^ 64] := by
  cases op with
  | add => exact (congrArg (· % 2 ^ 64) (m.toInt_add n)).trans Int.bmod_emod
  | sub => exact (congrArg (· % 2 ^ 64) (m.toInt_sub n)).trans Int.bmod_emod
  | mul => exact (congrArg (· % 2 ^ 64) (m.toInt_mul n)).trans Int.bmod_emod

/-- Operators respect congruence. -/
theorem Op.onIntegers_modEq (op : Op) {k a b c d : Int} (hab : a ≡ b [ZMOD k])
    (hcd : c ≡ d [ZMOD k]) : op.onIntegers a c ≡ op.onIntegers b d [ZMOD k] := by
  cases op with
  | add => exact hab.add hcd
  | sub => exact hab.sub hcd
  | mul => exact hab.mul hcd

namespace OpTree

/-- **A tree wraps around to what is congruent to its exact value**, wherever it wraps around. -/
theorem wrapped_modEq (t : OpTree Int64) : t.wrapped.toInt ≡ t.exactValue [ZMOD 2 ^ 64] := by
  induction t with
  | leaf n => exact .refl _
  | node op lhs rhs ihl ihr =>
    calc (op.onInts lhs.wrapped rhs.wrapped).toInt
        ≡ op.onIntegers lhs.wrapped.toInt rhs.wrapped.toInt [ZMOD 2 ^ 64] :=
          op.onInts_modEq lhs.wrapped rhs.wrapped
      _ ≡ op.onIntegers lhs.exactValue rhs.exactValue [ZMOD 2 ^ 64] := op.onIntegers_modEq ihl ihr

/-- The operators of a tree of integers never fail. -/
theorem value_map_int (t : OpTree Int64) : (t.map Value.int).value = .ok (.int t.wrapped) := by
  induction t with
  | leaf n => rfl
  | node op lhs rhs ihl ihr =>
    rw [map, value, ihl, ihr]
    rfl

end OpTree

/-! ### Expressions over integers -/

namespace Expr

/-- **Integers are computed modulo `2 ^ 64`.** Let `e` be a tree of operators over integer literals
and names that stand for integers in the scope `i`. If its evaluation does not reach the limit, it
ends with an integer, and does nothing else. That integer is the only one of 64 bits that is
congruent to the exact value of the tree modulo `2 ^ 64`, and it is the exact value if that fits. -/
theorem evalWithin_integers {s : State} {i : Scope.Index} {e : Expr} {t : OpTree Int64}
    (h : e.values? s.scopes i = some (t.map .int)) {limit depth : Nat}
    (hended : ∀ l s', evalWithin (m := Eval) limit depth i e s ≠ .error (.recursionLimit l) s') :
    ∃ v : Int64, evalWithin (m := Eval) limit depth i e s = .ok (.int v) s ∧
      v.toInt ≡ t.exactValue [ZMOD 2 ^ 64] ∧
      (∀ w : Int64, w.toInt ≡ t.exactValue [ZMOD 2 ^ 64] → w = v) ∧
      (-2 ^ 63 ≤ t.exactValue → t.exactValue < 2 ^ 63 → v.toInt = t.exactValue) := by
  have hmod := t.wrapped_modEq
  have hrange := fun w : Int64 => And.intro w.le_toInt w.toInt_lt
  refine ⟨t.wrapped, ?_, hmod, fun w hw => ?_, fun hlow hhigh => ?_⟩
  · rw [evalWithin_of_values? h hended, OpTree.value_map_int]
    rfl
  · have hcongr := hw.trans hmod.symm
    rw [← Int64.toInt_inj]
    exact eq_of_modEq_of_fits hcongr (hrange w).1 (hrange w).2 (hrange _).1 (hrange _).2
  · exact eq_of_modEq_of_fits hmod (hrange _).1 (hrange _).2 hlow hhigh

/-- A root that binds `top` to the largest integer. -/
def topRoot : State :=
  (Program.freshRuns [(1, [.assign "top" ⟨[], [], .int 9223372036854775807⟩])]).2

/-- `top * 3 - (top + top) - 1`. -/
def aroundTop : Expr :=
  .binary .sub
    (.binary .sub (.binary .mul (.ref "top" []) (.int 3))
      (.binary .add (.ref "top" []) (.ref "top" [])))
    (.int 1)

/-- The integers in it. -/
def aroundTopTree : OpTree Int64 :=
  .node .sub
    (.node .sub (.node .mul (.leaf 9223372036854775807) (.leaf 3))
      (.node .add (.leaf 9223372036854775807) (.leaf 9223372036854775807)))
    (.leaf 1)

/-- The product and the sum do not fit, and yet the value is exact. -/
theorem evalWithin_aroundTop_integers :
    aroundTop.values? topRoot.scopes .root = some (aroundTopTree.map .int) ∧
      (∀ l s', evalWithin (m := Eval) 3 3 .root aroundTop topRoot ≠ .error (.recursionLimit l) s') ∧
      ∃ v : Int64, evalWithin (m := Eval) 3 3 .root aroundTop topRoot = .ok (.int v) topRoot ∧
        v.toInt = 2 ^ 63 - 2 := by
  have hvalues : aroundTop.values? topRoot.scopes .root = some (aroundTopTree.map .int) := rfl
  have hended : ∀ l s', evalWithin (m := Eval) 3 3 .root aroundTop topRoot ≠
      .error (.recursionLimit l) s' := by
    intro l s' hcut
    have hends : Result.outcome (evalWithin (m := Eval) 3 3 .root aroundTop topRoot) =
        .ok (.int 9223372036854775806) := rfl
    rw [hcut] at hends
    cases hends
  have hexact : aroundTopTree.exactValue = 2 ^ 63 - 2 := by decide
  obtain ⟨v, hv, -, -, hfits⟩ := evalWithin_integers hvalues hended
  rw [hexact] at hfits
  exact ⟨hvalues, hended, v, hv, hfits (by decide) (by decide)⟩

end Expr

end Blockscript
