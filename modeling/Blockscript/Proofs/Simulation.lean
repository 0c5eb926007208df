import Blockscript.Evaluation
import Mathlib.Data.List.Forall2

/-!
# Simulations between evaluators

The evaluator uses scopes and output only through the operations of `MonadScopes`. So when two
monads run the same program, the two runs can be compared operation by operation: if each
operation of one monad matches the same operation of the other, whole evaluations match.

A `Simulation` says what matching means. Its worlds say which scope of the right side stands for
which scope of the left side; its relation on computations must be kept by the operations, and
nothing else. A `LocalSimulation` has a second relation, for computations that bind no name, so that
it can say of expressions that they leave the scopes alone. The recursion of the evaluator is
followed here once and for all.

## What is deliberately absent

Worlds carry no order. A block that is invoked refers to its own scope only, and whatever else it
reaches it reaches by looking a name up; so a new scope may start a world that has nothing to do
with the one around it, and no relation has to be monotone.

## Main definitions

* `Binding.Related`, `Bindings.Related` : bindings that agree up to the scopes of closures.
* `LocalSimulation` : two relations between computations that the operations of two monads keep,
  one for those that bind no name.
* `Simulation` : the same with one relation for all computations.
* `Result.Related` : outcomes with equal errors, or with related values, and with related states.
* `Program.runAll`, `Program.freshRuns` : programs run one after another.

## Main results

* `LocalSimulation.level`, `LocalSimulation.evalWithin` : related evaluators of one level give
  related evaluators of the next, so evaluations with the same limit are related.
* `LocalSimulation.foldlM_execWith`, `Simulation.runIn` : runs of a program are related.
* `Eval.related_lookup`, `Eval.related_bindName`, `Eval.related_inNewScope` : what it takes for an
  operation to match in two states.
* `Program.runAll_related` : sessions have equal results and related final states.
-/

namespace Blockscript

/-! ### Bindings that agree up to the scopes of closures -/

/-- What a relation gives for two things that may both be missing, a weaker one gives too. -/
theorem optionRel_imp {α β : Type} {R S : α → β → Prop} {a : Option α} {b : Option β}
    (h : Option.Rel R a b) (hRS : ∀ {x y}, R x y → S x y) : Option.Rel S a b := by
  cases h with
  | none => exact .none
  | some hxy => exact .some (hRS hxy)

/-- The same value, or the same block with parameters, in scopes that `same` relates. -/
inductive Binding.Related (same : Scope.Index → Scope.Index → Prop) : Binding → Binding → Prop where
  | value (v : Value) : Related same (.value v) (.value v)
  | block {block : Block} {i j : Scope.Index} (harity : 0 < block.arity) (hscope : same i j) :
    Related same (.block ⟨block, i⟩) (.block ⟨block, j⟩)

/-- The same names, in the same order, with related bindings. -/
def Bindings.Related (same : Scope.Index → Scope.Index → Prop) (bs cs : Bindings) : Prop :=
  List.Forall₂ (fun p q => p.1 = q.1 ∧ Binding.Related same p.2 q.2) bs.entries cs.entries

namespace Binding

variable {same same' : Scope.Index → Scope.Index → Prop} {b c : Binding}

theorem Related.mono (h : ∀ {i j}, same i j → same' i j) (hb : Related same b c) :
    Related same' b c := by
  cases hb with
  | value v => exact .value v
  | block harity hscope => exact .block harity (h hscope)

theorem Related.eq (h : ∀ {i j}, same i j → i = j) (hb : Related same b c) : b = c := by
  cases hb with
  | value v => rfl
  | block _ hscope => rw [h hscope]

/-- What a closure must satisfy for its binding to be related to itself. -/
theorem related_self (h : ∀ c, b = .block c → 1 ≤ c.arity ∧ same c.scope c.scope) :
    Related same b b := by
  cases b with
  | value v => exact .value v
  | block c => exact .block (h c rfl).1 (h c rfl).2

end Binding

namespace Bindings

variable {same same' : Scope.Index → Scope.Index → Prop} {bs cs : Bindings}

theorem Related.mono (h : ∀ {i j}, same i j → same' i j) (hb : Related same bs cs) :
    Related same' bs cs :=
  hb.imp fun _ _ hpq => ⟨hpq.1, hpq.2.mono h⟩

theorem Related.eq (h : ∀ {i j}, same i j → i = j) (hb : Related same bs cs) : bs = cs := by
  have hentries : bs.entries = cs.entries :=
    List.forall₂_eq_eq_eq ▸ hb.imp fun _ _ hpq => Prod.ext hpq.1 (hpq.2.eq h)
  cases bs
  cases cs
  exact congrArg Bindings.mk hentries

/-- Every name stands for related bindings on the two sides, or for nothing on both. -/
theorem Related.find? (h : Related same bs cs) (name : String) :
    Option.Rel (Binding.Related same) (bs.find? name) (cs.find? name) := by
  obtain ⟨bs⟩ := bs
  obtain ⟨cs⟩ := cs
  change List.Forall₂ _ bs cs at h
  show Option.Rel _ (bs.lookup name) (cs.lookup name)
  induction h with
  | nil => exact .none
  | cons hpq _ ih =>
    rw [List.lookup_cons, List.lookup_cons, ← hpq.1]
    split
    · exact .some hpq.2
    · exact ih

theorem related_empty : Related same empty empty :=
  .nil

theorem Related.insert (h : Related same bs cs) (name : String) {b c : Binding}
    (hb : Binding.Related same b c) : Related same (bs.insert name b) (cs.insert name c) := by
  refine .cons ⟨rfl, hb⟩ (List.rel_filter ?_ h)
  intro p q hpq
  simp only [hpq.1]

/-- Names bound in order to related bindings. The names are the same on the two sides, and a name
that occurs twice is bound twice on both. -/
theorem related_ofList_zip (names : List String) {bs cs : List Binding}
    (h : List.Forall₂ (Binding.Related same) bs cs) :
    Related same (ofList (names.zip bs)) (ofList (names.zip cs)) := by
  suffices key : ∀ as ds : Bindings, Related same as ds →
      Related same ((names.zip bs).foldl (fun as p => as.insert p.1 p.2) as)
        ((names.zip cs).foldl (fun as p => as.insert p.1 p.2) ds) from
    key empty empty related_empty
  induction h generalizing names with
  | nil => intro as ds had; simpa using had
  | cons hb _ ih =>
    intro as ds had
    cases names with
    | nil => simpa using had
    | cons name names => exact ih names _ _ (had.insert name hb)

end Bindings

/-! ### Simulations that know where names are bound -/

/-- A way to match computations of two monads with scopes that tells two kinds of them apart. The
evaluation of an expression leaves the scopes that it finds alone; a statement may bind names, in
the scope in which it is executed and in no other. -/
structure LocalSimulation (m n : Type → Type) [MonadScopes m] [MonadScopes n] where
  /-- Which scopes correspond is a matter of the world. -/
  World : Type
  /-- The scope on the right stands for the scope on the left. -/
  Same : World → Scope.Index → Scope.Index → Prop
  /-- Evaluation takes place in these scopes. -/
  Here : World → Scope.Index → Scope.Index → Prop
  /-- Scopes in which evaluation takes place correspond. -/
  same_of_here {w : World} {i j : Scope.Index} (h : Here w i j) : Same w i j
  /-- The computations match without binding a name in a scope of the world. -/
  Still : World → {α : Type} → (α → α → Prop) → m α → n α → Prop
  /-- The computations match, and may bind names where evaluation takes place. -/
  Rel : World → {α : Type} → (α → α → Prop) → m α → n α → Prop
  /-- What binds no name may stand where names may be bound. -/
  rel_of_still {w : World} {α : Type} {R : α → α → Prop} {x : m α} {y : n α}
    (h : Still w R x y) : Rel w R x y
  /-- Doing nothing matches. -/
  pure {w : World} {α : Type} {R : α → α → Prop} {a b : α} (h : R a b) :
    Still w R (Pure.pure a) (Pure.pure b)
  /-- What matches step by step matches, without binding names. -/
  still_bind {w : World} {α β : Type} {R : α → α → Prop} {S : β → β → Prop} {x : m α} {y : n α}
    {f : α → m β} {g : α → n β} (hx : Still w R x y) (hf : ∀ a b, R a b → Still w S (f a) (g b)) :
    Still w S (x >>= f) (y >>= g)
  /-- What matches step by step matches. -/
  bind {w : World} {α β : Type} {R : α → α → Prop} {S : β → β → Prop} {x : m α} {y : n α}
    {f : α → m β} {g : α → n β} (hx : Rel w R x y) (hf : ∀ a b, R a b → Rel w S (f a) (g b)) :
    Rel w S (x >>= f) (y >>= g)
  /-- Operators reject the same values. -/
  mismatch {w : World} {α : Type} {R : α → α → Prop} (e : TypeMismatch) :
    Still w R (MonadScopes.fail (.mismatch e)) (MonadScopes.fail (.mismatch e))
  /-- Blocks reject the same numbers of arguments. -/
  arity {w : World} {α : Type} {R : α → α → Prop} (name : String) (expected got : Nat) :
    Still w R (MonadScopes.fail (.arity name expected got))
      (MonadScopes.fail (.arity name expected got))
  /-- A name stands for related bindings in corresponding scopes. -/
  lookup {w : World} {i j : Scope.Index} (h : Same w i j) (name : String) :
    Still w (Binding.Related (Same w)) (MonadScopes.lookup i name) (MonadScopes.lookup j name)
  /-- Where evaluation takes place a name can be bound to a value, or to a block closed over that
  scope. -/
  bindName {w : World} {i j : Scope.Index} (h : Here w i j) (name : String) {b c : Binding}
    (hb : Binding.Related (fun k l => k = i ∧ l = j) b c) :
    Rel w Eq (MonadScopes.bindName i name b) (MonadScopes.bindName j name c)
  /-- Printing matches. -/
  emit {w : World} (text : String) : Still w Eq (MonadScopes.emit text) (MonadScopes.emit text)
  /-- A new scope may start another world, in which evaluation takes place in that scope. -/
  inNewScope {w : World} {i j : Scope.Index} (h : Same w i j) {bs cs : Bindings}
    (hb : bs.Related (Same w) cs) {α : Type} {R : α → α → Prop} {f : Scope.Index → m α}
    {g : Scope.Index → n α} (hf : ∀ {w' k l}, Here w' k l → Rel w' R (f k) (g l)) :
    Still w R (MonadScopes.inNewScope i bs f) (MonadScopes.inNewScope j cs g)

namespace LocalSimulation

variable {m n : Type → Type} [MonadScopes m] [MonadScopes n] (sim : LocalSimulation m n)

/-- The two evaluators match on every expression wherever evaluation takes place. -/
def Evals (eval : ExprEval m) (eval' : ExprEval n) : Prop :=
  ∀ {w : sim.World} {i j : Scope.Index}, sim.Here w i j → ∀ e : Expr,
    sim.Still w Eq (eval i e) (eval' j e)

variable {sim} {eval : ExprEval m} {eval' : ExprEval n}

/-! ### Statements and blocks -/

mutual

theorem execWith (h : sim.Evals eval eval') {w : sim.World} {i j : Scope.Index}
    (hij : sim.Here w i j) (stmt : Stmt) :
    sim.Rel w Eq (Stmt.execWith eval i stmt) (Stmt.execWith eval' j stmt) := by
  cases stmt with
  | assign name block =>
    rw [Stmt.execWith, Stmt.execWith]
    refine sim.bind (sim.rel_of_still (bindWith h hij block)) fun b c hb => ?_
    exact sim.bind (sim.bindName hij name hb) fun _ _ _ => sim.rel_of_still (sim.pure rfl)
  | print e =>
    rw [Stmt.execWith, Stmt.execWith]
    refine sim.rel_of_still (sim.still_bind (h hij e) fun v _ hv => ?_)
    subst hv
    exact sim.still_bind (sim.emit v.text) fun _ _ _ => sim.pure rfl
  | expr e =>
    rw [Stmt.execWith, Stmt.execWith]
    exact sim.rel_of_still (sim.still_bind (h hij e) fun v _ hv => sim.pure (congrArg some hv))

/-- A block binds a name to a value, or to itself in the scope where it stands. -/
theorem bindWith (h : sim.Evals eval eval') {w : sim.World} {i j : Scope.Index}
    (hij : sim.Here w i j) (block : BlockOf Stmt) :
    sim.Still w (Binding.Related fun k l => k = i ∧ l = j) (Block.bindWith eval i block)
      (Block.bindWith eval' j block) := by
  have hvalue : ∀ v v' : Value, v = v' → Binding.Related (fun k l => k = i ∧ l = j)
      (.value v) (.value v') := by
    rintro v _ rfl
    exact .value v
  match block with
  | ⟨[], [], tail⟩ =>
    rw [Block.bindWith, Block.bindWith]
    exact sim.still_bind (h hij tail) fun v v' hv => sim.pure (hvalue v v' hv)
  | ⟨[], stmt :: body, tail⟩ =>
    simp only [Block.bindWith]
    refine sim.still_bind (sim.inNewScope (sim.same_of_here hij) Bindings.related_empty
      fun hkl => ?_) fun v v' hv => sim.pure (hvalue v v' hv)
    exact sim.bind (execAllWith h hkl (stmt :: body)) fun _ _ _ => sim.rel_of_still (h hkl tail)
  | ⟨param :: params, body, tail⟩ =>
    simp only [Block.bindWith]
    exact sim.pure (.block (Nat.succ_pos _) ⟨rfl, rfl⟩)

theorem execAllWith (h : sim.Evals eval eval') {w : sim.World} {i j : Scope.Index}
    (hij : sim.Here w i j) (stmts : List Stmt) :
    sim.Rel w Eq (Stmt.execAllWith eval i stmts) (Stmt.execAllWith eval' j stmts) := by
  cases stmts with
  | nil =>
    rw [Stmt.execAllWith, Stmt.execAllWith]
    exact sim.rel_of_still (sim.pure rfl)
  | cons stmt rest =>
    rw [Stmt.execAllWith, Stmt.execAllWith]
    exact sim.bind (execWith h hij stmt) fun _ _ _ => execAllWith h hij rest

end

theorem runWith (h : sim.Evals eval eval') {w : sim.World} {i j : Scope.Index}
    (hij : sim.Here w i j) (block : Block) :
    sim.Rel w Eq (Block.runWith eval i block) (Block.runWith eval' j block) :=
  sim.bind (execAllWith h hij block.body) fun _ _ _ => sim.rel_of_still (h hij block.tail)

/-! ### Expressions -/

theorem applyIn {w : sim.World} (op : Op) (lhs rhs : Value) :
    sim.Still w Eq (op.applyIn m lhs rhs) (op.applyIn n lhs rhs) := by
  rw [Op.applyIn, Op.applyIn]
  split
  · exact sim.pure rfl
  · exact sim.mismatch _

theorem argumentWith (h : sim.Evals eval eval') {w : sim.World} {i j : Scope.Index}
    (hij : sim.Here w i j) (arg : Expr) :
    sim.Still w (Binding.Related (sim.Same w)) (Expr.argumentWith eval i arg)
      (Expr.argumentWith eval' j arg) := by
  have hvalue : sim.Still w (Binding.Related (sim.Same w))
      (do let v ← eval i arg; return .value v) (do let v ← eval' j arg; return .value v) := by
    refine sim.still_bind (h hij arg) fun v _ hv => ?_
    subst hv
    exact sim.pure (.value v)
  rw [Expr.argumentWith, Expr.argumentWith]
  split
  · exact hvalue
  · next name _ =>
    refine sim.still_bind (sim.lookup (sim.same_of_here hij) name) fun b c hb => ?_
    cases hb with
    | value v => exact sim.pure (.value v)
    | block harity hscope =>
      simp only [Closure.arity, harity, if_true]
      exact sim.pure (.block harity hscope)

theorem argumentsWith (h : sim.Evals eval eval') {w : sim.World} {i j : Scope.Index}
    (hij : sim.Here w i j) (args : List Expr) :
    sim.Still w (List.Forall₂ (Binding.Related (sim.Same w))) (Expr.argumentsWith eval i args)
      (Expr.argumentsWith eval' j args) := by
  induction args with
  | nil => exact sim.pure .nil
  | cons arg rest ih =>
    refine sim.still_bind (argumentWith h hij arg) fun b c hb => ?_
    exact sim.still_bind ih fun bs cs hbs => sim.pure (.cons hb hbs)

theorem invokeWith (h : sim.Evals eval eval') {w : sim.World} {i j k l : Scope.Index}
    (hij : sim.Here w i j) (hkl : sim.Same w k l) (name : String) (block : Block)
    (args : List Expr) :
    sim.Still w Eq (Expr.invokeWith eval i name ⟨block, k⟩ args)
      (Expr.invokeWith eval' j name ⟨block, l⟩ args) := by
  rw [Expr.invokeWith, Expr.invokeWith]
  by_cases harity : args.length = BlockOf.arity block
  · rw [if_pos (show args.length = (⟨block, k⟩ : Closure).arity from harity),
      if_pos (show args.length = (⟨block, l⟩ : Closure).arity from harity)]
    refine sim.still_bind (argumentsWith h hij args) fun bs cs hbs => ?_
    exact sim.inNewScope hkl (Bindings.related_ofList_zip _ hbs) fun hinner =>
      runWith h hinner block
  · rw [if_neg (show ¬args.length = (⟨block, k⟩ : Closure).arity from harity),
      if_neg (show ¬args.length = (⟨block, l⟩ : Closure).arity from harity)]
    exact sim.arity name (BlockOf.arity block) args.length

theorem chainWith (h : sim.Evals eval eval') {w : sim.World} {i j : Scope.Index}
    (hij : sim.Here w i j) (e : Expr) :
    sim.Still w Eq (Expr.chainWith eval i e) (Expr.chainWith eval' j e) := by
  refine sim.still_bind (h hij e.spine.1) fun v _ hv => ?_
  subst hv
  generalize e.spine.2 = steps
  induction steps generalizing v with
  | nil => exact sim.pure rfl
  | cons step steps ih =>
    simp only [List.foldlM_cons]
    refine sim.still_bind (R := Eq) (sim.still_bind (h hij step.2) fun rhs _ hrhs => ?_)
      fun acc _ hacc => ?_
    · subst hrhs
      exact applyIn step.1 v rhs
    · subst hacc
      exact ih acc

/-! ### The levels -/

/-- **One level.** Related evaluators of the operands give related evaluators of expressions. -/
theorem level (h : sim.Evals eval eval') :
    sim.Evals (Expr.levelWith eval) (Expr.levelWith eval') := by
  intro w i j hij e
  cases e with
  | int n => exact sim.pure rfl
  | float x => exact sim.pure rfl
  | str s => exact sim.pure rfl
  | ref name args =>
    refine sim.still_bind (sim.lookup (sim.same_of_here hij) name) fun b c hb => ?_
    cases hb with
    | value v => exact sim.pure rfl
    | block harity hscope => exact invokeWith h hij hscope name _ args
  | binary op lhs rhs => exact chainWith h hij _

/-- Evaluations with the same limit match if running out of levels does. -/
theorem evalWithin {limit : Nat}
    (hlimit : ∀ {w : sim.World}, sim.Still w (Eq : Value → Value → Prop)
      (MonadScopes.fail (.recursionLimit limit)) (MonadScopes.fail (.recursionLimit limit)))
    (depth : Nat) : sim.Evals (Expr.evalWithin limit depth) (Expr.evalWithin limit depth) := by
  induction depth with
  | zero => intro w i j _ e; exact hlimit
  | succ depth ih => exact level ih

/-- **Whole programs.** Two runs of a program match in every world in which evaluation takes place
in the roots. -/
theorem foldlM_execWith (h : sim.Evals eval eval') {w : sim.World} (hroot : sim.Here w .root .root)
    (program : Program) (last : Option Value) :
    sim.Rel w Eq (program.foldlM (fun _ stmt => Stmt.execWith eval .root stmt) last)
      (program.foldlM (fun _ stmt => Stmt.execWith eval' .root stmt) last) := by
  induction program generalizing last with
  | nil => exact sim.rel_of_still (sim.pure rfl)
  | cons stmt rest ih =>
    simp only [List.foldlM_cons]
    refine sim.bind (execWith h hroot stmt) fun last _ hlast => ?_
    subst hlast
    exact ih last

end LocalSimulation

/-! ### Simulations -/

/-- A way to match computations of two monads with scopes. -/
structure Simulation (m n : Type → Type) [MonadScopes m] [MonadScopes n] where
  /-- Which scopes correspond is a matter of the world. -/
  World : Type
  /-- The scope on the right stands for the scope on the left. -/
  Same : World → Scope.Index → Scope.Index → Prop
  /-- The computations match, and so do their values, according to the relation given. -/
  Rel : World → {α : Type} → (α → α → Prop) → m α → n α → Prop
  /-- Doing nothing matches. -/
  pure {w : World} {α : Type} {R : α → α → Prop} {a b : α} (h : R a b) :
    Rel w R (Pure.pure a) (Pure.pure b)
  /-- What matches step by step matches. -/
  bind {w : World} {α β : Type} {R : α → α → Prop} {S : β → β → Prop} {x : m α} {y : n α}
    {f : α → m β} {g : α → n β} (hx : Rel w R x y) (hf : ∀ a b, R a b → Rel w S (f a) (g b)) :
    Rel w S (x >>= f) (y >>= g)
  /-- The errors that evaluation raises of its own match. -/
  fail {w : World} {α : Type} {R : α → α → Prop} {e : EvalError} (he : ∀ d, e ≠ .deadScope d) :
    Rel w R (MonadScopes.fail e) (MonadScopes.fail e)
  /-- A name stands for related bindings in corresponding scopes. -/
  lookup {w : World} {i j : Scope.Index} (h : Same w i j) (name : String) :
    Rel w (Binding.Related (Same w)) (MonadScopes.lookup i name) (MonadScopes.lookup j name)
  /-- A name can be bound to a value, or to a block closed over the scope that binds it. -/
  bindName {w : World} {i j : Scope.Index} (h : Same w i j) (name : String) {b c : Binding}
    (hb : Binding.Related (fun k l => k = i ∧ l = j) b c) :
    Rel w Eq (MonadScopes.bindName i name b) (MonadScopes.bindName j name c)
  /-- Printing matches. -/
  emit {w : World} (text : String) : Rel w Eq (MonadScopes.emit text) (MonadScopes.emit text)
  /-- A new scope may start another world. -/
  inNewScope {w : World} {i j : Scope.Index} (h : Same w i j) {bs cs : Bindings}
    (hb : bs.Related (Same w) cs) {α : Type} {R : α → α → Prop} {f : Scope.Index → m α}
    {g : Scope.Index → n α} (hf : ∀ {w' k l}, Same w' k l → Rel w' R (f k) (g l)) :
    Rel w R (MonadScopes.inNewScope i bs f) (MonadScopes.inNewScope j cs g)

namespace Simulation

variable {m n : Type → Type} [MonadScopes m] [MonadScopes n]

/-- A simulation that does not care where names are bound. -/
def toLocal (sim : Simulation m n) : LocalSimulation m n where
  World := sim.World
  Same := sim.Same
  Here := sim.Same
  same_of_here h := h
  Still := sim.Rel
  Rel := sim.Rel
  rel_of_still h := h
  pure := sim.pure
  still_bind := sim.bind
  bind := sim.bind
  mismatch _ := sim.fail (by simp)
  arity _ _ _ := sim.fail (by simp)
  lookup := sim.lookup
  bindName := sim.bindName
  emit := sim.emit
  inNewScope := sim.inNewScope

/-- The two evaluators match on every expression in corresponding scopes of any world. -/
def Evals (sim : Simulation m n) (eval : ExprEval m) (eval' : ExprEval n) : Prop :=
  ∀ {w : sim.World} {i j : Scope.Index}, sim.Same w i j → ∀ e : Expr,
    sim.Rel w Eq (eval i e) (eval' j e)

theorem evalWithin (sim : Simulation m n) (limit depth : Nat) :
    sim.Evals (Expr.evalWithin limit depth) (Expr.evalWithin limit depth) :=
  sim.toLocal.evalWithin (sim.fail (by simp)) depth

/-- **Whole programs.** Two runs of a program match in every world that relates the roots. -/
theorem runIn (sim : Simulation m n) {w : sim.World} (hroot : sim.Same w .root .root)
    (limit : Nat) (program : Program) :
    sim.Rel w Eq (program.runIn m limit) (program.runIn n limit) :=
  sim.toLocal.foldlM_execWith (sim.evalWithin limit limit) hroot program none

end Simulation

/-! ### Outcomes -/

/-- What a computation on states of type `σ` ends with. -/
abbrev Result (σ α : Type) := EStateM.Result EvalError σ α

/-- Equal errors, none of which is about a dead scope, or related values; and related states. -/
inductive Result.Related {σ τ α : Type} (S : σ → τ → Prop) (R : α → α → Prop) :
    Result σ α → Result τ α → Prop where
  | ok {a b : α} {s : σ} {t : τ} (ha : R a b) (hs : S s t) : Related S R (.ok a s) (.ok b t)
  | error {e : EvalError} {s : σ} {t : τ} (he : ∀ d, e ≠ .deadScope d) (hs : S s t) :
    Related S R (.error e s) (.error e t)

/-- The state in which a computation ends. -/
def Result.state {σ α : Type} : Result σ α → σ
  | .ok _ s => s
  | .error _ s => s

/-- The value or the error of a computation. -/
def Result.outcome {σ α : Type} : Result σ α → Except EvalError α
  | .ok a _ => .ok a
  | .error e _ => .error e

theorem Result.Related.outcome {σ τ α : Type} {S : σ → τ → Prop} {r : Result σ α}
    {r' : Result τ α} (h : Related S Eq r r') : Result.outcome r = Result.outcome r' := by
  cases h with
  | ok ha _ => exact congrArg Except.ok ha
  | error _ _ => rfl

theorem Result.Related.state {σ τ α : Type} {S : σ → τ → Prop} {R : α → α → Prop}
    {r : Result σ α} {r' : Result τ α} (h : Related S R r r') :
    S (Result.state r) (Result.state r') := by
  cases h with
  | ok _ hs => exact hs
  | error _ hs => exact hs

theorem Result.Related.of_ok {σ τ α : Type} {S : σ → τ → Prop} {R : α → α → Prop}
    {r : Result σ α} {b : α} {t : τ} (h : Related S R r (.ok b t)) :
    ∃ a s, r = .ok a s ∧ R a b ∧ S s t := by
  cases h with
  | ok ha hs => exact ⟨_, _, rfl, ha, hs⟩

theorem Result.Related.of_error {σ τ α : Type} {S : σ → τ → Prop} {R : α → α → Prop}
    {r : Result σ α} {e : EvalError} {t : τ} (h : Related S R r (.error e t)) :
    ∃ s, r = .error e s ∧ S s t := by
  cases h with
  | error he hs => exact ⟨_, rfl, hs⟩

/-- An error on both sides is not about a dead scope. -/
theorem Result.Related.ne_deadScope {σ τ α : Type} {S : σ → τ → Prop} {R : α → α → Prop}
    {r : Result σ α} {e : EvalError} {t : τ} (h : Related S R r (.error e t)) (d : DeadScope) :
    e ≠ .deadScope d := by
  cases h with
  | error he _ => exact he d

theorem Result.Related.imp {σ τ α : Type} {S S' : σ → τ → Prop} {R : α → α → Prop}
    {r : Result σ α} {r' : Result τ α} (h : Related S R r r') (hS : ∀ s t, S s t → S' s t) :
    Related S' R r r' := by
  cases h with
  | ok ha hs => exact .ok ha (hS _ _ hs)
  | error he hs => exact .error he (hS _ _ hs)

theorem Result.Related.bind {σ τ α β : Type} {S : σ → τ → Prop} {R : α → α → Prop}
    {R' : β → β → Prop} {x : EStateM EvalError σ α} {y : EStateM EvalError τ α}
    {f : α → EStateM EvalError σ β} {g : α → EStateM EvalError τ β} {s : σ} {t : τ}
    (hx : Related S R (x s) (y t))
    (hf : ∀ a b s t, R a b → S s t → Related S R' (f a s) (g b t)) :
    Related S R' ((x >>= f) s) ((y >>= g) t) := by
  simp only [Bind.bind, EStateM.bind]
  generalize x s = r, y t = r' at hx ⊢
  cases hx with
  | ok ha hs => exact hf _ _ _ _ ha hs
  | error he hs => exact .error he hs

/-- The same end of a computation, in another state. -/
def Result.mapState {σ α : Type} (f : σ → σ) : Result σ α → Result σ α
  | .ok a s => .ok a (f s)
  | .error e s => .error e (f s)

theorem Result.state_mapState {σ α : Type} (f : σ → σ) (r : Result σ α) :
    Result.state (Result.mapState f r) = f (Result.state r) := by
  cases r with
  | ok a s => rfl
  | error e s => rfl

theorem Result.Related.mapState {σ τ α : Type} {S S' : σ → τ → Prop} {R : α → α → Prop}
    {r : Result σ α} {r' : Result τ α} (h : Related S R r r') {f : σ → σ} {g : τ → τ}
    (hfg : ∀ s t, S s t → S' (f s) (g t)) :
    Related S' R (Result.mapState f r) (Result.mapState g r') := by
  cases h with
  | ok ha hs => exact .ok ha (hfg _ _ hs)
  | error he hs => exact .error he (hfg _ _ hs)

/-! ### The operations in two states -/

namespace Eval

variable {S S' : State → State → Prop} {s t : State} {i j : Scope.Index} {name : String}

/-- What runs in a new scope is followed by dropping that scope, however it ends. -/
theorem inNewScope_eq {α : Type} (outer : Scope.Index) (bindings : Bindings)
    (run : Scope.Index → Eval α) (s : State) :
    inNewScope outer bindings run s =
      Result.mapState (fun s' => { s' with scopes := s'.scopes.dropFrom s.scopes.size })
        (run s.scopes.size { s with scopes := (s.scopes.push outer bindings).2 }) := by
  simp only [inNewScope, Scopes.push]
  cases run s.scopes.size _ with
  | ok a s' => rfl
  | error e s' => rfl

/-- A name that stands for related bindings in the two states, or for nothing in both. -/
theorem related_lookup {same : Scope.Index → Scope.Index → Prop} (hst : S s t)
    (h : ∃ b c, s.scopes.lookup i name = .ok b ∧ t.scopes.lookup j name = .ok c ∧
      Option.Rel (Binding.Related same) b c) :
    Result.Related S (Binding.Related same) (lookup i name s) (lookup j name t) := by
  obtain ⟨b, c, hb, hc, hbc⟩ := h
  rw [lookup, lookup, hb, hc]
  cases hbc with
  | none => exact .error (by simp) hst
  | some hbc => exact .ok hbc hst

/-- A name that can be bound in the two states. -/
theorem related_bindName {b c : Binding}
    (h : ∃ a a', s.scopes.insert i name b = .ok a ∧ t.scopes.insert j name c = .ok a' ∧
      S { s with scopes := a } { t with scopes := a' }) :
    Result.Related S Eq (bindName i name b s) (bindName j name c t) := by
  obtain ⟨a, a', ha, ha', hst⟩ := h
  rw [bindName, bindName, ha, ha']
  exact .ok rfl hst

/-- A new scope on both sides, which is dropped on both sides when the computations in it have
ended. -/
theorem related_inNewScope {α : Type} {R : α → α → Prop} {bs cs : Bindings}
    {f g : Scope.Index → Eval α}
    (h : Result.Related S R (f s.scopes.size { s with scopes := (s.scopes.push i bs).2 })
      (g t.scopes.size { t with scopes := (t.scopes.push j cs).2 }))
    (hdrop : ∀ s₁ t₁, S s₁ t₁ → S' { s₁ with scopes := s₁.scopes.dropFrom s.scopes.size }
      { t₁ with scopes := t₁.scopes.dropFrom t.scopes.size }) :
    Result.Related S' R (inNewScope i bs f s) (inNewScope j cs g t) := by
  rw [inNewScope_eq, inNewScope_eq]
  exact h.mapState hdrop

end Eval

/-! ### Sessions -/

namespace Program

/-- Runs programs one after another, each with a limit of its own and from the state that the one
before it left, whether that one succeeded or not. -/
def runAll {σ : Type} (run : Nat → Program → EStateM EvalError σ (Option Value)) :
    List (Nat × Program) → σ → List (Except EvalError (Option Value)) × σ
  | [], s => ([], s)
  | (limit, program) :: rest, s =>
    match run limit program s with
    | .ok v s' => ((runAll run rest s').1.cons (.ok v), (runAll run rest s').2)
    | .error e s' => ((runAll run rest s').1.cons (.error e), (runAll run rest s').2)

/-- The results of programs that are run one after another from a fresh state, and the state that
they leave. -/
def freshRuns (runs : List (Nat × Program)) : List (Except EvalError (Option Value)) × State :=
  runAll (fun limit program => program.run limit) runs .initial

/-- **Sessions.** If every run keeps two states related and ends alike, whole sessions do, and
none of their runs fails for a dead scope. -/
theorem runAll_related {σ τ : Type} {S : σ → τ → Prop}
    {run : Nat → Program → EStateM EvalError σ (Option Value)}
    {run' : Nat → Program → EStateM EvalError τ (Option Value)}
    (h : ∀ limit program s t, S s t →
      Result.Related S Eq (run limit program s) (run' limit program t))
    (runs : List (Nat × Program)) {s : σ} {t : τ} (hst : S s t) :
    (runAll run runs s).1 = (runAll run' runs t).1 ∧
      (∀ d, .error (.deadScope d) ∉ (runAll run runs s).1) ∧
      S (runAll run runs s).2 (runAll run' runs t).2 := by
  induction runs generalizing s t with
  | nil => exact ⟨rfl, fun d => List.not_mem_nil, hst⟩
  | cons first rest ih =>
    obtain ⟨limit, program⟩ := first
    have hrun := h limit program s t hst
    simp only [runAll]
    generalize run limit program s = r, run' limit program t = r' at hrun ⊢
    cases hrun with
    | ok ha hs =>
      subst ha
      obtain ⟨hresults, hlive, hstates⟩ := ih hs
      exact ⟨by simp [hresults], by simpa using hlive, hstates⟩
    | error he hs =>
      obtain ⟨hresults, hlive, hstates⟩ := ih hs
      refine ⟨by simp [hresults], fun d => ?_, hstates⟩
      simpa using ⟨(he d).symm, hlive d⟩

end Program

end Blockscript
