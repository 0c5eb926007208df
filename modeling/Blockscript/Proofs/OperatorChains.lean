import Blockscript.Proofs.Approximation
import Blockscript.Proofs.Simulation

/-!
# Chains of operators

A chain `a + b - c …` is a tree that leans to the left, as deep as the chain is long. The textbook
evaluates such a tree by recursion, one level for each operator. The evaluator walks the left spine
in a loop instead, so that the operands of a chain are all at one level, however long it is.

This module compares the two. The textbook evaluator differs in nothing but the operators: whatever
else there is, the blocks that operands invoke included, is evaluated by the same functions. It
needs more levels, so it may be cut short where the evaluator is not; but where it is not, the two
agree in every respect.

## The shape of the argument

The two do not go down together: a left operand is one level deeper in the textbook and at no level
at all in the loop. So the induction on levels carries two statements at once: the textbook
approximates the evaluator, and it approximates the recursion on left operands that the loop amounts
to. The second takes over when the textbook descends into a left operand.

## Main definitions

* `Expr.textbookLevelWith`, `Expr.textbookWithin` : the textbook evaluator.

## Main results

* `Expr.textbookWithin_approximates` : the textbook evaluator is cut short or agrees.
* `Expr.evalWithin_eq_textbookWithin` : the headline, together with the loop as a recursion.
-/

namespace Blockscript

namespace Expr

section

variable {m : Type → Type} [MonadScopes m]

/-- The value of an expression, over the evaluator of the next level, where both operands of every
operator are at the next level. -/
def textbookLevelWith (eval : ExprEval m) (scope : Scope.Index) : Expr → m Value
  | .binary op lhs rhs => do
    let a ← eval scope lhs
    let b ← eval scope rhs
    op.applyIn m a b
  | e => levelWith eval scope e

/-- The value of an expression in a scope as the textbook has it, with `depth` levels of nesting
still permitted out of `limit`. -/
def textbookWithin (limit : Nat) : (depth : Nat) → ExprEval m
  | 0 => fun _ _ => MonadScopes.fail (.recursionLimit limit)
  | depth + 1 => textbookLevelWith (textbookWithin limit depth)

end

/-- One level of the textbook, given what its evaluator of the operands approximates. -/
theorem textbookLevelWith_approximates {textbook eval : ExprEval Eval}
    (heval : ExprEval.Approximates textbook eval)
    (hspine : ExprEval.Approximates textbook (descendWith eval)) :
    ExprEval.Approximates (textbookLevelWith textbook) (levelWith eval) := by
  intro i e
  cases e with
  | int n => exact .refl _
  | float x => exact .refl _
  | str s => exact .refl _
  | ref name args => exact heval.level i (.ref name args)
  | binary op lhs rhs =>
    rw [textbookLevelWith, levelWith, chainWith_eq_descendWith, descendWith]
    refine (hspine i lhs).bind fun a => ?_
    exact (heval i rhs).bind fun b => .refl _

/-- **The textbook evaluator is cut short or agrees**, with the evaluator and with the recursion on
left operands. -/
theorem textbookWithin_approximates (limit depth : Nat) :
    ExprEval.Approximates (textbookWithin limit depth) (evalWithin limit depth) ∧
      ExprEval.Approximates (textbookWithin limit depth)
        (descendWith (evalWithin limit depth)) := by
  induction depth with
  | zero =>
    constructor
    · intro i e
      exact Eval.approximates_recursionLimit limit _
    · intro i e
      exact Eval.approximates_recursionLimit limit _
  | succ depth ih =>
    obtain ⟨heval, hspine⟩ := ih
    have hnext : ExprEval.Approximates (textbookWithin limit (depth + 1))
        (evalWithin limit (depth + 1)) := textbookLevelWith_approximates heval hspine
    refine ⟨hnext, ?_⟩
    -- The operands of a left operand are two levels down in the textbook, and one in the recursion.
    have hdeeper := evalWithin_approximates limit (Nat.le_succ depth)
    intro i e
    cases e with
    | binary op lhs rhs =>
      rw [descendWith]
      refine Eval.Approximates.bind ?_ fun a => Eval.Approximates.bind ?_ fun b => .refl _
      · exact (hspine i lhs).trans (approximates_descendWith hdeeper i lhs)
      · exact (heval i rhs).trans (hdeeper i rhs)
    | int n => exact hnext i _
    | float x => exact hnext i _
    | str s => exact hnext i _
    | ref name args => exact hnext i _

/-- **Chains of operators are evaluated as the textbook says.** In any state and any scope, alive or
not:

* if the textbook evaluator does not run into the limit on an expression, the evaluator ends as it
  does, with the same value or error, the same output and the same scopes;
* the loop over a chain is the recursion on left operands, whatever the limit. -/
theorem evalWithin_eq_textbookWithin (limit depth : Nat) (i : Scope.Index) (e : Expr) (s : State) :
    ((∀ l s', textbookWithin (m := Eval) limit depth i e s ≠ .error (.recursionLimit l) s') →
      evalWithin (m := Eval) limit depth i e s = textbookWithin (m := Eval) limit depth i e s) ∧
    chainWith (m := Eval) (evalWithin limit depth) i e s =
      descendWith (m := Eval) (evalWithin limit depth) i e s := by
  refine ⟨fun hended => ?_, ?_⟩
  · rcases (textbookWithin_approximates limit depth).1 i e s with ⟨l, s', hcut⟩ | hagree
    · exact absurd hcut (hended l s')
    · exact hagree
  · rw [chainWith_eq_descendWith]

/-- A root that binds `echo` to a block that prints its argument and doubles it. -/
def echoRoot : State :=
  (Program.freshRuns [(1, [.assign "echo" ⟨["n"], [.print (.ref "n" [])],
    .binary .mul (.ref "n" []) (.int 2)⟩])]).2

/-- A chain that leans both ways: `echo 1 - (echo 2 + echo 3) + 'x' + echo 4`. -/
def echoChain : Expr :=
  .binary .add
    (.binary .add
      (.binary .sub (.ref "echo" [.int 1]) (.binary .add (.ref "echo" [.int 2])
        (.ref "echo" [.int 3])))
      (.str "x"))
    (.ref "echo" [.int 4])

/-- Three operands have been printed when the text is met, and the last one never is. -/
theorem evalWithin_echoChain_eq_textbookWithin :
    ∃ s', textbookWithin (m := Eval) 7 7 .root echoChain echoRoot =
        .error (.mismatch ⟨.add, .int, .str⟩) s' ∧
      s'.output.toList = ["1", "2", "3"] ∧
      evalWithin (m := Eval) 7 7 .root echoChain echoRoot =
        .error (.mismatch ⟨.add, .int, .str⟩) s' := by
  have hfails : Result.outcome (textbookWithin (m := Eval) 7 7 .root echoChain echoRoot) =
      .error (.mismatch ⟨.add, .int, .str⟩) := rfl
  refine ⟨_, rfl, by decide, ?_⟩
  refine ((evalWithin_eq_textbookWithin 7 7 .root echoChain echoRoot).1 ?_).trans rfl
  intro l s' hcut
  rw [hcut] at hfails
  simp [Result.outcome] at hfails

end Expr

end Blockscript
