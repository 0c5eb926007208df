import Blockscript.Evaluation

/-!
# Evaluations that are cut short

An evaluation that runs into the limit on nesting says nothing about what it would have come to. So
when two evaluators differ only in where they are cut short, the natural order between them is this:
the first ends as the second does, in the same state, unless it runs into a limit.

Whatever evaluation is made of keeps this order, since an error is never caught: what follows a
failed computation does not run, and a scope is dropped after a failure as after a success. No
assumption about the state is needed for that, not even that the scopes in use are alive.

## Main definitions

* `Expr.descendWith` : the value of a chain of operators, by recursion on left operands.
* `Eval.Approximates`, `ExprEval.Approximates` : the order, on computations and on evaluators.

## Main results

* `Expr.chainWith_eq_descendWith` : a chain of operators is evaluated as by recursion on left
  operands.
* `ExprEval.Approximates.level` : the evaluator of expressions is monotone in that of operands.
* `Expr.evalWithin_approximates` : fewer levels approximate more levels.
-/

namespace Blockscript

/-! ### Chains of operators as a recursion -/

namespace Expr

variable {m : Type → Type} [MonadScopes m]

/-- The value of a chain of operators, by recursion on left operands. Only the leftmost operand and
the right operands are evaluated as expressions of their own. -/
def descendWith (eval : ExprEval m) (scope : Scope.Index) : Expr → m Value
  | .binary op lhs rhs => do
    let a ← descendWith eval scope lhs
    let b ← eval scope rhs
    op.applyIn m a b
  | e => eval scope e

/-- Going on with operators that have been put aside, after the operands of `e` are joined. -/
theorem foldlM_spineOnto [LawfulMonad m] (eval : ExprEval m) (scope : Scope.Index)
    (steps : List (Op × Expr)) (e : Expr) :
    (do
      let v ← eval scope (spineOnto steps e).1
      (spineOnto steps e).2.foldlM
        (fun acc ((op, rhs) : Op × Expr) => do op.applyIn m acc (← eval scope rhs)) v) =
    (do
      let v ← descendWith eval scope e
      steps.foldlM
        (fun acc ((op, rhs) : Op × Expr) => do op.applyIn m acc (← eval scope rhs)) v) := by
  fun_induction spineOnto steps e with
  | case1 steps op lhs rhs ih =>
    rw [ih]
    simp only [descendWith, List.foldlM_cons, bind_assoc]
  | case2 steps e hbinary =>
    rw [descendWith]
    intro op lhs rhs he
    exact hbinary op lhs rhs he

/-- **The loop over a chain of operators is a recursion on left operands.** -/
theorem chainWith_eq_descendWith [LawfulMonad m] (eval : ExprEval m) (scope : Scope.Index)
    (e : Expr) : chainWith eval scope e = descendWith eval scope e := by
  have hloop : chainWith eval scope e = _ := foldlM_spineOnto eval scope [] e
  rw [hloop]
  simp only [List.foldlM_nil, bind_pure]

end Expr

/-! ### The order -/

namespace Eval

variable {α β : Type}

/-- The computation `x` ends as `y` does, unless it runs into a limit. -/
def Approximates (x y : Eval α) : Prop :=
  ∀ s, (∃ l s', x s = .error (.recursionLimit l) s') ∨ y s = x s

theorem Approximates.refl (x : Eval α) : Approximates x x := by
  intro s
  exact .inr rfl

theorem Approximates.trans {x y z : Eval α} (hxy : Approximates x y) (hyz : Approximates y z) :
    Approximates x z := by
  intro s
  rcases hxy s with hcut | hxy
  · exact .inl hcut
  · rw [← hxy]
    exact hyz s

/-- What is cut short at once approximates everything. -/
theorem approximates_recursionLimit (limit : Nat) (x : Eval α) :
    Approximates (fail (.recursionLimit limit)) x := by
  intro s
  exact .inl ⟨limit, s, rfl⟩

theorem Approximates.bind {x y : Eval α} {f g : α → Eval β} (hx : Approximates x y)
    (hf : ∀ a, Approximates (f a) (g a)) : Approximates (x >>= f) (y >>= g) := by
  intro s
  simp only [Bind.bind, EStateM.bind]
  rcases hx s with ⟨l, s', hcut⟩ | hxy
  · rw [hcut]
    exact .inl ⟨l, s', rfl⟩
  · rw [hxy]
    cases x s with
    | ok a s' => exact hf a s'
    | error e s' => exact .inr rfl

theorem Approximates.inNewScope {outer : Scope.Index} {bindings : Bindings}
    {f g : Scope.Index → Eval α} (hf : ∀ i, Approximates (f i) (g i)) :
    Approximates (inNewScope outer bindings f) (inNewScope outer bindings g) := by
  intro s
  simp only [Eval.inNewScope]
  rcases hf _ { s with scopes := (s.scopes.push outer bindings).2 } with ⟨l, s', hcut⟩ | hfg
  · rw [hcut]
    exact .inl ⟨l, _, rfl⟩
  · rw [hfg]
    exact .inr rfl

end Eval

/-- The evaluator `eval` ends as `eval'` does on every expression, unless it runs into a limit. -/
def ExprEval.Approximates (eval eval' : ExprEval Eval) : Prop :=
  ∀ i e, Eval.Approximates (eval i e) (eval' i e)

/-! ### Evaluation keeps the order -/

open Eval

variable {eval eval' : ExprEval Eval}

mutual

theorem Stmt.approximates_execWith (h : ExprEval.Approximates eval eval') (i : Scope.Index)
    (stmt : Stmt) : Approximates (Stmt.execWith eval i stmt) (Stmt.execWith eval' i stmt) := by
  cases stmt with
  | assign name block =>
    rw [Stmt.execWith, Stmt.execWith]
    exact (Block.approximates_bindWith h i block).bind fun b => .refl _
  | print e =>
    rw [Stmt.execWith, Stmt.execWith]
    exact (h i e).bind fun v => .refl _
  | expr e =>
    rw [Stmt.execWith, Stmt.execWith]
    exact (h i e).bind fun v => .refl _

theorem Block.approximates_bindWith (h : ExprEval.Approximates eval eval') (i : Scope.Index)
    (block : BlockOf Stmt) :
    Approximates (Block.bindWith eval i block) (Block.bindWith eval' i block) := by
  match block with
  | ⟨[], [], tail⟩ =>
    rw [Block.bindWith, Block.bindWith]
    exact (h i tail).bind fun v => .refl _
  | ⟨[], stmt :: body, tail⟩ =>
    simp only [Block.bindWith]
    refine Approximates.bind (Approximates.inNewScope fun inner => ?_) fun v => .refl _
    exact (Stmt.approximates_execAllWith h inner (stmt :: body)).bind fun _ => h inner tail
  | ⟨param :: params, body, tail⟩ =>
    simp only [Block.bindWith]
    exact .refl _

theorem Stmt.approximates_execAllWith (h : ExprEval.Approximates eval eval') (i : Scope.Index)
    (stmts : List Stmt) :
    Approximates (Stmt.execAllWith eval i stmts) (Stmt.execAllWith eval' i stmts) := by
  cases stmts with
  | nil =>
    rw [Stmt.execAllWith, Stmt.execAllWith]
    exact .refl _
  | cons stmt rest =>
    rw [Stmt.execAllWith, Stmt.execAllWith]
    exact (Stmt.approximates_execWith h i stmt).bind fun _ =>
      Stmt.approximates_execAllWith h i rest

end

theorem Block.approximates_runWith (h : ExprEval.Approximates eval eval') (i : Scope.Index)
    (block : Block) : Approximates (Block.runWith eval i block) (Block.runWith eval' i block) :=
  (Stmt.approximates_execAllWith h i block.body).bind fun _ => h i block.tail

namespace Expr

theorem approximates_argumentWith (h : ExprEval.Approximates eval eval') (i : Scope.Index)
    (arg : Expr) : Approximates (argumentWith eval i arg) (argumentWith eval' i arg) := by
  have hvalue : Approximates (do let v ← eval i arg; return Binding.value v)
      (do let v ← eval' i arg; return Binding.value v) :=
    (h i arg).bind fun v => .refl _
  rw [argumentWith, argumentWith]
  split
  · exact hvalue
  · refine Approximates.bind (.refl _) fun b => ?_
    cases b with
    | value v => exact .refl _
    | block c =>
      dsimp only
      split
      · exact .refl _
      · exact hvalue

theorem approximates_argumentsWith (h : ExprEval.Approximates eval eval') (i : Scope.Index)
    (args : List Expr) : Approximates (argumentsWith eval i args) (argumentsWith eval' i args) := by
  induction args with
  | nil => exact .refl _
  | cons arg rest ih =>
    refine (approximates_argumentWith h i arg).bind fun b => ?_
    exact ih.bind fun bs => .refl _

theorem approximates_invokeWith (h : ExprEval.Approximates eval eval') (i : Scope.Index)
    (name : String) (c : Closure) (args : List Expr) :
    Approximates (invokeWith eval i name c args) (invokeWith eval' i name c args) := by
  rw [invokeWith, invokeWith]
  split
  · refine (approximates_argumentsWith h i args).bind fun bs => ?_
    exact Approximates.inNewScope fun inner => Block.approximates_runWith h inner c.block
  · exact .refl _

theorem approximates_descendWith (h : ExprEval.Approximates eval eval') (i : Scope.Index)
    (e : Expr) : Approximates (descendWith eval i e) (descendWith eval' i e) := by
  fun_induction descendWith eval i e with
  | case1 op lhs rhs ih =>
    rw [descendWith]
    refine ih.bind fun a => ?_
    exact (h i rhs).bind fun b => .refl _
  | case2 e hbinary =>
    rw [descendWith]
    · exact h i e
    · exact hbinary

end Expr

/-- **One level.** The evaluator of expressions is monotone in that of their operands. -/
theorem ExprEval.Approximates.level (h : ExprEval.Approximates eval eval') :
    ExprEval.Approximates (Expr.levelWith eval) (Expr.levelWith eval') := by
  intro i e
  cases e with
  | int n => exact .refl _
  | float x => exact .refl _
  | str s => exact .refl _
  | ref name args =>
    rw [Expr.levelWith, Expr.levelWith]
    refine Approximates.bind (.refl _) fun b => ?_
    cases b with
    | value v => exact .refl _
    | block c => exact Expr.approximates_invokeWith h i name c args
  | binary op lhs rhs =>
    rw [Expr.levelWith, Expr.levelWith, Expr.chainWith_eq_descendWith,
      Expr.chainWith_eq_descendWith]
    exact Expr.approximates_descendWith h i _

/-- **Fewer levels approximate more levels.** -/
theorem Expr.evalWithin_approximates (limit : Nat) {depth depth' : Nat} (h : depth ≤ depth') :
    ExprEval.Approximates (Expr.evalWithin limit depth) (Expr.evalWithin limit depth') := by
  induction depth generalizing depth' with
  | zero =>
    intro i e
    exact approximates_recursionLimit limit _
  | succ depth ih =>
    obtain ⟨k, rfl⟩ : ∃ k, depth' = k + 1 := ⟨depth' - 1, by omega⟩
    exact (ih (Nat.le_of_succ_le_succ h)).level

end Blockscript
