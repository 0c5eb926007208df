import Blockscript.Proofs.NestingGuard
import Blockscript.Proofs.Approximation

/-!
# Trees of operators

An expression is a tree of operators over operands that join nothing: literals and references. Here
it is said how such a tree is evaluated when something is known of its leaves.

If one leaf fails wherever the evaluation may come to it, the tree fails: all operands are
evaluated, one after the other, and nothing is skipped. If all leaves have a value that is at hand,
since they are literals or names that stand for values, then the tree has the value that comes of
applying the operators to these values, innermost first, and its evaluation does nothing else.

## Main definitions

* `OpTree` : trees of operators over leaves of any type, and `OpTree.leaves`.
* `Expr.tree` : an expression as a tree of operators.
* `Scopes.operand?`, `Expr.values?` : the value at hand of a leaf, and the tree of these values.
* `OpTree.value` : the value of a tree of values.
* `Eval.FailsIn` : a computation fails in every state with the given scopes.

## Main results

* `Expr.evalWithin_failsIn` : a tree with a leaf that fails, fails.
* `Expr.evalWithin_of_levels_le` : a tree of values has the value that its operators give, if there
  are enough levels.
* `Expr.evalWithin_of_values?` : the same whenever the limit is not reached.
-/

namespace Blockscript

/-! ### Trees -/

/-- A tree of binary operators. -/
inductive OpTree (α : Type) where
  | leaf (a : α)
  | node (op : Op) (lhs rhs : OpTree α)

namespace OpTree

variable {α β : Type}

/-- The leaves from left to right. -/
def leaves : OpTree α → List α
  | .leaf a => [a]
  | .node _ lhs rhs => lhs.leaves ++ rhs.leaves

/-- The same tree over other leaves. -/
def map (f : α → β) : OpTree α → OpTree β
  | .leaf a => .leaf (f a)
  | .node op lhs rhs => .node op (lhs.map f) (rhs.map f)

/-- The same tree over other leaves, if each leaf has one. -/
def map? (f : α → Option β) : OpTree α → Option (OpTree β)
  | .leaf a => (f a).map leaf
  | .node op lhs rhs => do
    let l ← lhs.map? f
    let r ← rhs.map? f
    return .node op l r

theorem map?_node_eq_some {f : α → Option β} {op : Op} {lhs rhs : OpTree α} {t : OpTree β}
    (h : (node op lhs rhs).map? f = some t) :
    ∃ l r, lhs.map? f = some l ∧ rhs.map? f = some r ∧ t = .node op l r := by
  simp only [map?, Option.bind_eq_bind, Option.bind_eq_some_iff] at h
  obtain ⟨l, hl, r, hr, ht⟩ := h
  exact ⟨l, r, hl, hr, (Option.some.inj ht).symm⟩

/-- The value that comes of applying the operators, the left operand first. -/
def value : OpTree Value → Except TypeMismatch Value
  | .leaf v => .ok v
  | .node op lhs rhs => do
    let a ← lhs.value
    let b ← rhs.value
    op.apply a b

end OpTree

/-- An expression as a tree of operators. Its leaves are the operands that join nothing. -/
def Expr.tree : Expr → OpTree Expr
  | .binary op lhs rhs => .node op lhs.tree rhs.tree
  | e => .leaf e

/-- The value that is at hand for an operand that joins nothing: that of a literal, or the one that
a name stands for. Arguments of such a name are ignored. -/
def Scopes.operand? (a : Scopes) (i : Scope.Index) : Expr → Option Value
  | .int n => some (.int n)
  | .float x => some (.float x)
  | .str t => some (.str t)
  | .ref name _ =>
    match a.lookup i name with
    | .ok (some (.value v)) => some v
    | _ => none
  | .binary .. => none

/-- An expression as a tree of values, if all its leaves have one at hand in the scope `i`. -/
def Expr.values? (a : Scopes) (i : Scope.Index) (e : Expr) : Option (OpTree Value) :=
  e.tree.map? (a.operand? i)

/-! ### A leaf that fails -/

namespace Eval

variable {α β : Type} {a : Scopes}

/-- The computation fails in every state with these scopes. -/
def FailsIn (a : Scopes) (x : Eval α) : Prop :=
  ∀ s : State, s.scopes = a → ∃ e s', x s = .error e s'

theorem FailsIn.bind {x : Eval α} (h : FailsIn a x) (f : α → Eval β) : FailsIn a (x >>= f) := by
  intro s hs
  obtain ⟨e, s', hx⟩ := h s hs
  exact ⟨e, s', bind_of_eq_error hx f⟩

/-- What follows a computation that leaves the scopes alone decides whether the two fail. -/
theorem failsIn_bind {x : Eval α} {f : α → Eval β}
    (hx : ∀ s : State, s.scopes = a → (Result.state (x s)).scopes = a)
    (hf : ∀ v, FailsIn a (f v)) : FailsIn a (x >>= f) := by
  intro s hs
  have hscopes := hx s hs
  cases hrun : x s with
  | error e s' => exact ⟨e, s', bind_of_eq_error hrun f⟩
  | ok v s' =>
    rw [hrun] at hscopes
    rw [bind_of_eq_ok hrun f]
    exact hf v s' hscopes

end Eval

namespace Expr

open Eval

variable {s : State} {i : Scope.Index} {limit : Nat}

/-- The recursion over left operands leaves the scopes alone. -/
theorem descendWith_scopes (hwf : s.scopes.WellFormed) (hi : i < s.scopes.size) (limit depth : Nat)
    (e : Expr) :
    (Result.state (descendWith (m := Eval) (evalWithin limit depth) i e s)).scopes = s.scopes := by
  rw [← chainWith_eq_descendWith]
  exact (LocalSimulation.chainWith (counting_evalWithin 0 limit depth) (w := ⟨s.scopes.size, i⟩)
    ⟨rfl, rfl, hi⟩ e s ⟨hwf, rfl⟩).state.2.scopes

/-- A leaf is evaluated at the level of the tree or deeper. If it fails there, the tree fails: as an
expression of its own, and as a left operand of a chain. -/
theorem failsIn_of_leaf {a : Scopes} (hwf : a.WellFormed) (hi : i < a.size) {leaf e : Expr}
    (hmem : leaf ∈ e.tree.leaves) {depth : Nat}
    (hleaf : ∀ d ≤ depth, FailsIn a (evalWithin limit d i leaf)) :
    FailsIn a (evalWithin limit depth i e) ∧
      FailsIn a (descendWith (evalWithin limit depth) i e) := by
  fun_induction tree e generalizing depth with
  | case1 op lhs rhs ihl ihr =>
    rw [OpTree.leaves, List.mem_append] at hmem
    have hdescend : ∀ d ≤ depth,
        FailsIn a (descendWith (evalWithin limit d) i (.binary op lhs rhs)) := by
      intro d hd
      have hleaf' := fun d' hd' => hleaf d' (Nat.le_trans hd' hd)
      rw [descendWith]
      rcases hmem with hmem | hmem
      · exact (ihl hmem hleaf').2.bind _
      · refine failsIn_bind ?_ fun v => (ihr hmem hleaf').1.bind _
        rintro s rfl
        exact descendWith_scopes hwf hi limit d lhs
    refine ⟨?_, hdescend depth (Nat.le_refl depth)⟩
    cases depth with
    | zero => exact fun s _ => ⟨_, _, rfl⟩
    | succ depth =>
      rw [evalWithin, levelWith, chainWith_eq_descendWith]
      exact hdescend depth (Nat.le_succ depth)
  | case2 e hne =>
    obtain rfl := List.mem_singleton.mp hmem
    rw [descendWith]
    · exact ⟨hleaf depth (Nat.le_refl depth), hleaf depth (Nat.le_refl depth)⟩
    · exact hne

/-- **A tree with a leaf that fails, fails.** -/
theorem evalWithin_failsIn {a : Scopes} (hwf : a.WellFormed) (hi : i < a.size) {leaf e : Expr}
    (hmem : leaf ∈ e.tree.leaves) {depth : Nat}
    (hleaf : ∀ d ≤ depth, FailsIn a (evalWithin limit d i leaf)) :
    FailsIn a (evalWithin limit depth i e) :=
  (failsIn_of_leaf hwf hi hmem hleaf).1

end Expr

/-! ### Trees of values -/

/-- The computation that ends with the given value, or with the given error. -/
def Eval.ofValue (x : Except TypeMismatch Value) : Eval Value :=
  match x with
  | .ok v => return v
  | .error e => fail (.mismatch e)

theorem Eval.ofValue_eq_ok_iff {x : Except TypeMismatch Value} {s s' : State} {v : Value} :
    Eval.ofValue x s = .ok v s' ↔ x = .ok v ∧ s' = s := by
  cases x with
  | ok w =>
    show EStateM.Result.ok w s = .ok v s' ↔ _
    simp [eq_comm]
  | error e => exact ⟨fun h => (by cases h), fun h => (by cases h.1)⟩

theorem Eval.ofValue_eq_error_iff {x : Except TypeMismatch Value} {s s' : State} {e : EvalError} :
    Eval.ofValue x s = .error e s' ↔ (∃ m, x = .error m ∧ e = .mismatch m) ∧ s' = s := by
  cases x with
  | ok w => exact ⟨fun h => (by cases h), fun h => (by obtain ⟨⟨m, hm, -⟩, -⟩ := h; cases hm)⟩
  | error m =>
    show EStateM.Result.error (EvalError.mismatch m) s = .error e s' ↔ _
    simp [eq_comm]

namespace Expr

variable {s : State} {i : Scope.Index} {e : Expr} {t : OpTree Value}

/-- A value that is at hand takes one level. -/
theorem evalWithin_of_operand? {v : Value} (h : s.scopes.operand? i e = some v)
    (limit depth : Nat) : evalWithin (m := Eval) limit (depth + 1) i e s = .ok v s := by
  cases e with
  | int n => exact congrArg (EStateM.Result.ok · s) (Option.some.inj h)
  | float x => exact congrArg (EStateM.Result.ok · s) (Option.some.inj h)
  | str t => exact congrArg (EStateM.Result.ok · s) (Option.some.inj h)
  | ref name args =>
    rw [Scopes.operand?] at h
    split at h
    · next w hname =>
      obtain rfl := Option.some.inj h
      have hlookup : Eval.lookup i name s = .ok (.value w) s := by
        rw [Eval.lookup, hname]
      exact Eval.bind_of_eq_ok hlookup _
    · cases h
  | binary op lhs rhs => cases h

/-- An operator on two trees whose evaluation gives their values. -/
theorem bind_ofValue_node {x y : Eval Value} {op : Op} {l r : OpTree Value}
    (hx : x s = Eval.ofValue l.value s) (hy : y s = Eval.ofValue r.value s) :
    (do let a ← x; let b ← y; op.applyIn Eval a b : Eval Value) s =
      Eval.ofValue (OpTree.node op l r).value s := by
  rw [OpTree.value]
  cases hl : l.value with
  | error e =>
    rw [hl] at hx
    exact Eval.bind_of_eq_error hx _
  | ok a =>
    rw [hl] at hx
    rw [Eval.bind_of_eq_ok hx]
    cases hr : r.value with
    | error e =>
      rw [hr] at hy
      exact Eval.bind_of_eq_error hy _
    | ok b =>
      rw [hr] at hy
      rw [Eval.bind_of_eq_ok hy]
      rfl

/-- The value of a tree of values, as an expression of its own and as a left operand of a chain. The
second takes no level of its own, but its operands take one. -/
theorem eval_of_levels_le (h : e.values? s.scopes i = some t) (limit depth : Nat) :
    (e.levels ≤ depth →
      evalWithin (m := Eval) limit depth i e s = Eval.ofValue t.value s) ∧
    (1 ≤ depth → e.levels ≤ depth + 1 →
      descendWith (m := Eval) (evalWithin limit depth) i e s = Eval.ofValue t.value s) := by
  unfold values? at h
  fun_induction tree e generalizing t depth with
  | case1 op lhs rhs ihl ihr =>
    obtain ⟨l, r, hl, hr, rfl⟩ := OpTree.map?_node_eq_some h
    have hrhs := rhs.levels_pos
    have hdescend : ∀ d, (Expr.binary op lhs rhs).levels ≤ d + 1 →
        descendWith (m := Eval) (evalWithin limit d) i (.binary op lhs rhs) s =
          Eval.ofValue (OpTree.node op l r).value s := by
      intro d hd
      rw [levels] at hd
      rw [descendWith]
      exact bind_ofValue_node ((ihl hl d).2 (by omega) (by omega)) ((ihr hr d).1 (by omega))
    refine ⟨fun hdepth => ?_, fun _ hdepth => hdescend depth hdepth⟩
    obtain ⟨d, rfl⟩ : ∃ d, depth = d + 1 := ⟨depth - 1, by rw [levels] at hdepth; omega⟩
    rw [evalWithin, levelWith, chainWith_eq_descendWith]
    exact hdescend d hdepth
  | case2 e hne =>
    obtain ⟨v, hv, rfl⟩ := Option.map_eq_some_iff.mp h
    have hleaf : 1 ≤ depth →
        evalWithin (m := Eval) limit depth i e s = Eval.ofValue (OpTree.leaf v).value s := by
      intro hdepth
      obtain ⟨d, rfl⟩ : ∃ d, depth = d + 1 := ⟨depth - 1, by omega⟩
      exact evalWithin_of_operand? hv limit d
    have hpos := e.levels_pos
    refine ⟨fun hdepth => hleaf (by omega), fun hdepth _ => ?_⟩
    rw [descendWith]
    · exact hleaf hdepth
    · exact hne

/-- **A tree of values has the value that its operators give**, if there are enough levels. -/
theorem evalWithin_of_levels_le (h : e.values? s.scopes i = some t) (limit : Nat) {depth : Nat}
    (hdepth : e.levels ≤ depth) :
    evalWithin (m := Eval) limit depth i e s = Eval.ofValue t.value s :=
  (eval_of_levels_le h limit depth).1 hdepth

/-- Whatever the number of levels, a tree of values has the value that its operators give unless the
limit is reached. -/
theorem evalWithin_of_values? (h : e.values? s.scopes i = some t) {limit depth : Nat}
    (hended : ∀ l s', evalWithin (m := Eval) limit depth i e s ≠ .error (.recursionLimit l) s') :
    evalWithin (m := Eval) limit depth i e s = Eval.ofValue t.value s := by
  have henough := evalWithin_of_levels_le h limit (Nat.le_max_right depth e.levels)
  rcases evalWithin_approximates limit (Nat.le_max_left depth e.levels) i e s with
    ⟨l, s', hcut⟩ | hagree
  · exact absurd hcut (hended l s')
  · rw [← hagree, henough]

end Expr

end Blockscript
