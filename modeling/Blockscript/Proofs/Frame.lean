import Blockscript.Proofs.Arena
import Blockscript.Proofs.Simulation

/-!
# What evaluation leaves behind

The evaluation of an expression may open scopes, bind names in them and drop them again. When it
ends, with a value or with an error, the arena is what it was before and the only trace is what has
been printed. A statement may also bind names, but only in the scope in which it is executed.

The levels of nesting are an argument of the evaluator, so it seems that there is nothing to say
about them. `Counted` keeps them the other way, as a counter in the state that goes up when the
evaluation of an expression begins and down when it ends. That evaluator does the same, and it too
leaves its counter as it was.

## Main definitions

* `State.Printed`, `State.Extended` : what an expression, and what a statement, does to the state.
* `Scopes.Alive`, `Scope.Live` : how many scopes are alive, and that an index is one of theirs.
* `Standpoint` : the world of simulations between evaluators with the same scopes.
* `Counted` : computations on a state with a counter of nested evaluations.
* `Counted.eval`, `Counted.run` : the evaluator over such a counter.

## Main results

* `Eval.lookup_of_lt`, `Eval.bindName_of_lt` : what the steps do in a live scope.
* `counting` : the two ways of keeping the levels do the same, and leave the arena alone.
* `Expr.evalWithin_printed`, `Block.bindWith_printed` : evaluation only prints.
* `Stmt.printed_of_execWith_error` : a statement that fails has bound nothing.
* `Counted.run_of_atRest` : whole programs, with a counter that starts and ends at zero.
-/

namespace Blockscript

/-! ### Two ways to change a state -/

/-- Two arenas with the same scopes are equal. -/
theorem Scopes.eq_of_getElem? {a b : Scopes} (h : ∀ i : Nat, a.frames[i]? = b.frames[i]?) :
    a = b := by
  obtain ⟨a⟩ := a
  obtain ⟨b⟩ := b
  exact congrArg Scopes.mk (Array.ext_getElem? h)

namespace State

/-- Something may have been printed, and nothing else has happened. -/
structure Printed (s s' : State) : Prop where
  /-- The arena is the same. -/
  scopes : s'.scopes = s.scopes
  /-- What had been printed before is still there. -/
  output : s.output.toList <+: s'.output.toList

/-- Something may have been printed, and names may have been bound in the scope `i`. -/
structure Extended (i : Scope.Index) (s s' : State) : Prop where
  /-- The arena is well-formed. -/
  wellFormed : s'.scopes.WellFormed
  /-- The same scopes are alive. -/
  size : s'.scopes.size = s.scopes.size
  /-- All other scopes are the same. -/
  frame : ∀ k ≠ i, s'.scopes.frames[k]? = s.scopes.frames[k]?
  /-- What had been printed before is still there. -/
  output : s.output.toList <+: s'.output.toList

/-- The state of an evaluator that is not running: only the root is alive. -/
structure AtRest (s : State) : Prop where
  /-- The arena is well-formed. -/
  wellFormed : s.scopes.WellFormed
  /-- Only the root is alive. -/
  size : s.scopes.size = 1

variable {s s₁ s₂ : State} {i : Scope.Index}

theorem Printed.refl (s : State) : s.Printed s :=
  ⟨rfl, List.prefix_refl _⟩

theorem Printed.trans (h₁ : s.Printed s₁) (h₂ : s₁.Printed s₂) : s.Printed s₂ :=
  ⟨h₂.scopes.trans h₁.scopes, h₁.output.trans h₂.output⟩

theorem Printed.extended (h : s.Printed s₁) (hwf : s.scopes.WellFormed) (i : Scope.Index) :
    s.Extended i s₁ :=
  ⟨h.scopes ▸ hwf, by rw [h.scopes], fun k _ => by rw [h.scopes], h.output⟩

theorem Extended.trans (h₁ : s.Extended i s₁) (h₂ : s₁.Extended i s₂) : s.Extended i s₂ :=
  ⟨h₂.wellFormed, h₂.size.trans h₁.size, fun k hk => (h₂.frame k hk).trans (h₁.frame k hk),
    h₁.output.trans h₂.output⟩

theorem printed_emit (s : State) (text : String) :
    s.Printed { s with output := s.output.push text } :=
  ⟨rfl, by simp⟩

/-- When the scope of a call is dropped, what its statements have bound goes with it. -/
theorem Extended.dropFrom {outer : Scope.Index} {bindings : Bindings}
    (hpos : 0 < s.scopes.size)
    (h : Extended s.scopes.size { s with scopes := (s.scopes.push outer bindings).2 } s₁) :
    s.Printed { s₁ with scopes := s₁.scopes.dropFrom s.scopes.size } := by
  refine ⟨Scopes.eq_of_getElem? fun k => ?_, h.output⟩
  rw [Scopes.getElem?_dropFrom]
  by_cases hk : k < s.scopes.size
  · have hpush := h.frame k (Nat.ne_of_lt hk)
    rw [if_pos (Nat.lt_of_lt_of_le hk (Nat.le_max_left _ _)), hpush, Scopes.getElem?_push,
      if_neg (Nat.ne_of_lt hk)]
  · have hmax : ¬k < max s.scopes.size 1 := by omega
    rw [if_neg hmax, Array.getElem?_eq_none (Nat.le_of_not_lt hk)]

theorem atRest_initial : initial.AtRest :=
  ⟨Scopes.wellFormed_initial, rfl⟩

theorem AtRest.extended (h : s.AtRest) (hs : s.Extended i s₁) : s₁.AtRest :=
  ⟨hs.wellFormed, hs.size.trans h.size⟩

end State

/-! ### The steps in a well-formed arena -/

/-- The arena is well-formed, and `n` scopes are alive. -/
structure Scopes.Alive (a : Scopes) (n : Nat) : Prop extends Scopes.WellFormed a where
  /-- The number of live scopes. -/
  size_eq : a.size = n

/-- Of `n` live scopes, each stands for itself. -/
def Scope.Live (n : Nat) (i j : Scope.Index) : Prop :=
  i = j ∧ i < n

/-- Where an evaluation stands: how many scopes are alive, and in which of them it takes place. -/
structure Standpoint where
  /-- The number of live scopes. -/
  size : Nat
  /-- The scope in which evaluation takes place. -/
  scope : Scope.Index

namespace Standpoint

/-- The index of the scope in which evaluation takes place, on both sides. -/
def Here (w : Standpoint) (i j : Scope.Index) : Prop :=
  i = j ∧ i = w.scope ∧ i < w.size

theorem Here.live {w : Standpoint} {i j : Scope.Index} (h : w.Here i j) : Scope.Live w.size i j :=
  ⟨h.1, h.2.2⟩

end Standpoint

/-- What is bound in a scope, if it is closed over that scope, has captured no younger one. -/
theorem Binding.Related.captured_le {i : Scope.Index} {b : Binding}
    (h : Binding.Related (fun k l => k = i ∧ l = i) b b) (c : Closure) (hc : b = .block c) :
    c.scope ≤ i ∧ 1 ≤ c.arity := by
  subst hc
  cases h with
  | block harity hscope => exact ⟨Nat.le_of_eq hscope.1, harity⟩

/-- Related to themselves, bindings hold closures over live scopes only. -/
theorem Bindings.Related.captured_lt {n : Nat} {bs : Bindings} (h : bs.Related (Scope.Live n) bs)
    (name : String) (c : Closure) (hc : bs.find? name = some (.block c)) :
    c.scope < n ∧ 1 ≤ c.arity := by
  have hname := h.find? name
  rw [hc] at hname
  cases hname with
  | some hblock =>
    cases hblock with
    | block harity hscope => exact ⟨hscope.2, harity⟩

section Alive

variable {s s₁ : State} {i : Scope.Index} {n : Nat}

theorem State.AtRest.alive (h : s.AtRest) : s.scopes.Alive 1 :=
  ⟨h.wellFormed, h.size⟩

theorem State.Printed.alive (h : s.Printed s₁) (hs : s.scopes.Alive n) : s₁.scopes.Alive n :=
  h.scopes ▸ hs

theorem State.Extended.alive (h : s.Extended i s₁) (hs : s.scopes.Alive n) : s₁.scopes.Alive n :=
  ⟨h.wellFormed, h.size.trans hs.size_eq⟩

/-- A new scope inside a live one, with bindings that refer to live scopes only. -/
theorem Scopes.Alive.push {a : Scopes} (h : a.Alive n) (hi : i < n) {bs : Bindings}
    (hb : bs.Related (Scope.Live n) bs) : (a.push i bs).2.Alive (n + 1) := by
  obtain ⟨hwf, rfl⟩ := h
  exact ⟨hwf.push hi hb.captured_lt, size_push a i bs⟩

end Alive

namespace Eval

variable {s : State} {i : Scope.Index}

/-- In a live scope a name stands for something, or it is unbound; a closure that it stands for is
over a live scope. -/
theorem lookup_of_lt {n : Nat} (h : s.scopes.Alive n) (hi : i < n) (name : String) :
    (∃ b, lookup i name s = .ok b s ∧ Binding.Related (Scope.Live n) b b) ∨
      lookup i name s = .error (.unbound name) s := by
  obtain ⟨hwf, rfl⟩ := h
  obtain ⟨path, -, hpath⟩ := hwf.lookup_eq_nearest hi
  obtain ⟨hlookup, hclosure⟩ := hpath name
  rw [lookup, hlookup]
  cases hb : s.scopes.nearest name path with
  | none => exact .inr rfl
  | some b =>
    refine .inl ⟨b, rfl, Binding.related_self fun c hc => ?_⟩
    obtain ⟨hscope, harity⟩ := hclosure c (hc ▸ hb)
    exact ⟨harity, rfl, Nat.lt_of_le_of_lt hscope hi⟩

/-- In a live scope a name can be bound to a value, or to a block closed over that scope. -/
theorem bindName_of_lt (hwf : s.scopes.WellFormed) (hi : i < s.scopes.size) (name : String)
    {b : Binding} (hb : Binding.Related (fun k l => k = i ∧ l = i) b b) :
    ∃ s', bindName i name b s = .ok () s' ∧ s.Extended i s' := by
  obtain ⟨a, hinsert, hsize, hwf'⟩ := hwf.insert hi name hb.captured_le
  refine ⟨{ s with scopes := a }, by rw [bindName, hinsert], hwf', hsize, fun k hk => ?_,
    List.prefix_refl _⟩
  rw [Scopes.getElem?_of_insert hinsert, if_neg hk]

/-- What follows a computation that succeeds goes on from there. -/
theorem bind_of_eq_ok {α β : Type} {x : Eval α} {a : α} {s' : State} (h : x s = .ok a s')
    (f : α → Eval β) : (x >>= f) s = f a s' := by
  simp only [Bind.bind, EStateM.bind, h]

/-- What follows a computation that fails does not run. -/
theorem bind_of_eq_error {α β : Type} {x : Eval α} {e : EvalError} {s' : State}
    (h : x s = .error e s') (f : α → Eval β) : (x >>= f) s = .error e s' := by
  simp only [Bind.bind, EStateM.bind, h]

/-- A computation that succeeds has succeeded step by step. -/
theorem exists_of_bind_eq_ok {α β : Type} {x : Eval α} {f : α → Eval β} {b : β} {s' : State}
    (h : (x >>= f) s = .ok b s') : ∃ a s₁, x s = .ok a s₁ ∧ f a s₁ = .ok b s' := by
  cases hx : x s with
  | ok a s₁ => exact ⟨a, s₁, rfl, (bind_of_eq_ok hx f).symm.trans h⟩
  | error e s₁ => exact absurd ((bind_of_eq_error hx f).symm.trans h) (by simp)

/-- If what follows a computation cannot fail, a failure is that of the computation. -/
theorem eq_error_of_bind {α β : Type} {x : Eval α} {f : α → Eval β} {e : EvalError} {s' : State}
    (h : (x >>= f) s = .error e s')
    (hf : ∀ a s₁, x s = .ok a s₁ → ∃ b s₂, f a s₁ = .ok b s₂) : x s = .error e s' := by
  simp only [Bind.bind, EStateM.bind] at h
  cases hx : x s with
  | error e₁ s₁ =>
    rw [hx] at h
    simpa using h
  | ok a s₁ =>
    obtain ⟨b, s₂, hok⟩ := hf a s₁ hx
    rw [hx] at h
    exact absurd (hok.symm.trans h) (by simp)

end Eval

/-! ### Evaluation with a counter -/

/-- A state with the number of evaluations that have begun and not yet ended. -/
structure CountedState extends State where
  /-- The nesting of evaluations. -/
  depth : Nat

/-- Computations on a state with a counter. -/
abbrev Counted (α : Type) := EStateM EvalError CountedState α

namespace Counted

/-- Does a step on the state, which leaves the counter alone. -/
def lift {α : Type} (x : Eval α) : Counted α := fun t =>
  match x t.toState with
  | .ok a s => .ok a ⟨s, t.depth⟩
  | .error e s => .error e ⟨s, t.depth⟩

/-- Runs a computation in a new scope and drops that scope, with the counter as the computation
leaves it. -/
def inNewScope {α : Type} (outer : Scope.Index) (bindings : Bindings)
    (run : Scope.Index → Counted α) : Counted α := fun t =>
  let (id, scopes) := t.scopes.push outer bindings
  match run id { t with scopes } with
  | .ok a t' => .ok a { t' with scopes := t'.scopes.dropFrom id }
  | .error e t' => .error e { t' with scopes := t'.scopes.dropFrom id }

instance : MonadScopes Counted where
  lookup id name := lift (Eval.lookup id name)
  bindName id name b := lift (Eval.bindName id name b)
  emit text := lift (Eval.emit text)
  inNewScope := inNewScope
  fail e := lift (Eval.fail e)

/-- Runs a computation one level deeper, unless the limit is reached. -/
def nested {α : Type} (limit : Nat) (x : Counted α) : Counted α := fun t =>
  if limit ≤ t.depth then .error (.recursionLimit limit) t
  else
    match x { t with depth := t.depth + 1 } with
    | .ok a t' => .ok a { t' with depth := t'.depth - 1 }
    | .error e t' => .error e { t' with depth := t'.depth - 1 }

/-- The value of an expression, with the counter as the only guard. The number of `rounds` is there
for the recursion; it is never used up if it is at least the limit. -/
def eval (limit : Nat) : (rounds : Nat) → ExprEval Counted
  | 0 => fun _ _ => MonadScopes.fail (.recursionLimit limit)
  | rounds + 1 => fun scope e => nested limit (Expr.levelWith (eval limit rounds) scope e)

/-- Executes a program in the root scope. -/
def run (limit rounds : Nat) (program : Program) : Counted (Option Value) :=
  program.foldlM (fun _ stmt => Stmt.execWith (eval limit rounds) .root stmt) none

/-! ### The steps with a counter

Each step leaves the counter where it was, at `c`, and what it does to the state is what the same
step does without a counter. -/

section Steps

variable {α β : Type} {R : α → α → Prop} {s : State} {c n : Nat} {i : Scope.Index}

/-- Both runs go on, each step with `T` between the states around it. -/
theorem related_bind {R' : β → β → Prop} {T : State → State → Prop}
    (htrans : ∀ {s₁ s₂ s₃}, T s₁ s₂ → T s₂ s₃ → T s₁ s₃) {x : Counted α} {y : Eval α}
    {f : α → Counted β} {g : α → Eval β}
    (hx : Result.Related (fun t' s' => t' = ⟨s', c⟩ ∧ T s s') R (x ⟨s, c⟩) (y s))
    (hf : ∀ a b s₁, R a b → T s s₁ →
      Result.Related (fun t' s' => t' = ⟨s', c⟩ ∧ T s₁ s') R' (f a ⟨s₁, c⟩) (g b s₁)) :
    Result.Related (fun t' s' => t' = ⟨s', c⟩ ∧ T s s') R' ((x >>= f) ⟨s, c⟩) ((y >>= g) s) := by
  refine hx.bind ?_
  rintro a b _ s₁ hab ⟨rfl, h₁⟩
  exact (hf a b s₁ hab h₁).imp fun t₂ s₂ h₂ => ⟨h₂.1, htrans h₁ h₂.2⟩

theorem related_lookup (h : s.scopes.Alive n) (hi : i < n) (name : String) :
    Result.Related (fun t' s' => t' = ⟨s', c⟩ ∧ s.Printed s') (Binding.Related (Scope.Live n))
      (lift (Eval.lookup i name) ⟨s, c⟩) (Eval.lookup i name s) := by
  rcases Eval.lookup_of_lt h hi name with ⟨b, hlookup, hb⟩ | hlookup
  · simp only [lift, hlookup]
    exact .ok hb ⟨rfl, .refl s⟩
  · simp only [lift, hlookup]
    exact .error (by simp) ⟨rfl, .refl s⟩

theorem related_bindName (h : s.scopes.Alive n) (hi : i < n) (name : String) {b : Binding}
    (hb : Binding.Related (fun k l => k = i ∧ l = i) b b) :
    Result.Related (fun t' s' => t' = ⟨s', c⟩ ∧ s.Extended i s') Eq
      (lift (Eval.bindName i name b) ⟨s, c⟩) (Eval.bindName i name b s) := by
  rw [← h.size_eq] at hi
  obtain ⟨s', hbind, hextended⟩ := Eval.bindName_of_lt h.toWellFormed hi name hb
  simp only [lift, hbind]
  exact .ok rfl ⟨rfl, hextended⟩

/-- What runs in a new scope is followed by dropping that scope, and the counter is as the
computation leaves it. -/
theorem inNewScope_eq (outer : Scope.Index) (bindings : Bindings) (run : Scope.Index → Counted α)
    (t : CountedState) :
    inNewScope outer bindings run t =
      Result.mapState (fun t' => { t' with scopes := t'.scopes.dropFrom t.scopes.size })
        (run t.scopes.size { t with scopes := (t.scopes.push outer bindings).2 }) := by
  simp only [inNewScope, Scopes.push_fst]
  cases run t.scopes.size _ with
  | ok a t' => rfl
  | error e t' => rfl

theorem related_inNewScope (h : s.scopes.Alive n) (hi : i < n) {bs : Bindings}
    (hb : bs.Related (Scope.Live n) bs) {f : Scope.Index → Counted α} {g : Scope.Index → Eval α}
    (hf : ∀ s₁ : State, s₁.scopes.Alive (n + 1) →
      Result.Related (fun t' s' => t' = ⟨s', c⟩ ∧ s₁.Extended n s') R (f n ⟨s₁, c⟩) (g n s₁)) :
    Result.Related (fun t' s' => t' = ⟨s', c⟩ ∧ s.Printed s') R (inNewScope i bs f ⟨s, c⟩)
      (Eval.inNewScope i bs g s) := by
  have hinner := hf { s with scopes := (s.scopes.push i bs).2 } (h.push hi hb)
  obtain ⟨hwf, rfl⟩ := h
  rw [inNewScope_eq, Eval.inNewScope_eq]
  refine hinner.mapState ?_
  rintro _ s₁ ⟨rfl, hextended⟩
  exact ⟨rfl, hextended.dropFrom hwf.size_pos⟩

end Steps

end Counted

/-- **The counter and the arena come back.** On the left the levels are counted in the state, where
the counter is at `c`; on the right they are not kept at all. -/
def counting (c : Nat) : LocalSimulation Counted Eval where
  World := Standpoint
  Same w := Scope.Live w.size
  Here := Standpoint.Here
  same_of_here := @Standpoint.Here.live
  Still w _ R x y := ∀ s : State, s.scopes.Alive w.size →
    Result.Related (fun t' s' => t' = ⟨s', c⟩ ∧ s.Printed s') R (x ⟨s, c⟩) (y s)
  Rel w _ R x y := ∀ s : State, s.scopes.Alive w.size →
    Result.Related (fun t' s' => t' = ⟨s', c⟩ ∧ s.Extended w.scope s') R (x ⟨s, c⟩) (y s)
  rel_of_still h s hs := (h s hs).imp fun _ _ h' => ⟨h'.1, h'.2.extended hs.toWellFormed _⟩
  pure h s _ := .ok h ⟨rfl, .refl s⟩
  still_bind hx hf s hs :=
    Counted.related_bind .trans (hx s hs) fun a b s₁ hab h₁ => hf a b hab s₁ (h₁.alive hs)
  bind hx hf s hs :=
    Counted.related_bind .trans (hx s hs) fun a b s₁ hab h₁ => hf a b hab s₁ (h₁.alive hs)
  mismatch _ s _ := .error (by simp) ⟨rfl, .refl s⟩
  arity _ _ _ s _ := .error (by simp) ⟨rfl, .refl s⟩
  lookup h name s hs := by
    obtain ⟨rfl, hi⟩ := h
    exact Counted.related_lookup hs hi name
  bindName h name b b' hb s hs := by
    obtain ⟨rfl, rfl, hi⟩ := h
    obtain rfl := hb.eq fun h => h.1.trans h.2.symm
    exact Counted.related_bindName hs hi name hb
  emit text s _ := .ok rfl ⟨rfl, s.printed_emit text⟩
  inNewScope {w i j} h bs cs hb α R f g hf s hs := by
    obtain ⟨rfl, hi⟩ := h
    obtain rfl := hb.eq fun h => h.1
    exact Counted.related_inNewScope hs hi hb fun s₁ hs₁ =>
      @hf ⟨w.size + 1, w.size⟩ _ _ ⟨rfl, rfl, Nat.lt_succ_self _⟩ s₁ hs₁

/-! ### Evaluation only prints -/

section

variable {s : State} {i : Scope.Index}

theorem counting_evalWithin (c limit depth : Nat) :
    (counting c).Evals (Expr.evalWithin limit depth) (Expr.evalWithin limit depth) :=
  LocalSimulation.evalWithin (fun s _ => .error (by simp) ⟨rfl, .refl s⟩) depth

/-- **The evaluation of an expression only prints.** Whether it succeeds or not, the arena is
afterwards what it was before. -/
theorem Expr.evalWithin_printed (hwf : s.scopes.WellFormed) (hi : i < s.scopes.size)
    (limit depth : Nat) (e : Expr) :
    s.Printed (Result.state (Expr.evalWithin (m := Eval) limit depth i e s)) :=
  (counting_evalWithin 0 limit depth (w := ⟨s.scopes.size, i⟩) ⟨rfl, rfl, hi⟩ e s
    ⟨hwf, rfl⟩).state.2

/-- What a name is to be bound to is found without binding anything: the same holds of blocks. -/
theorem Block.bindWith_printed (hwf : s.scopes.WellFormed) (hi : i < s.scopes.size)
    (limit depth : Nat) (block : Block) :
    s.Printed (Result.state
      (Block.bindWith (m := Eval) (Expr.evalWithin limit depth) i block s)) :=
  (LocalSimulation.bindWith (counting_evalWithin 0 limit depth) (w := ⟨s.scopes.size, i⟩)
    ⟨rfl, rfl, hi⟩ block s ⟨hwf, rfl⟩).state.2

/-- What a name is to be bound to is a value, or a block closed over the scope of the statement. -/
theorem Block.related_of_bindWith_eq_ok (hwf : s.scopes.WellFormed) (hi : i < s.scopes.size)
    {limit depth : Nat} {block : Block} {b : Binding} {s' : State}
    (h : Block.bindWith (m := Eval) (Expr.evalWithin limit depth) i block s = .ok b s') :
    Binding.Related (fun k l => k = i ∧ l = i) b b := by
  have hrel := LocalSimulation.bindWith (counting_evalWithin 0 limit depth)
    (w := ⟨s.scopes.size, i⟩) ⟨rfl, rfl, hi⟩ block s ⟨hwf, rfl⟩
  rw [h] at hrel
  obtain ⟨b', t, -, hb, -⟩ := hrel.of_ok
  obtain rfl := hb.eq fun h => h.1.trans h.2.symm
  exact hb

/-- **A statement that fails has bound nothing.** A name is bound only after what it is bound to has
been found, and to bind it cannot fail. -/
theorem Stmt.printed_of_execWith_error (hwf : s.scopes.WellFormed) (hi : i < s.scopes.size)
    {limit depth : Nat} {stmt : Stmt} {e : EvalError} {s' : State}
    (h : Stmt.execWith (m := Eval) (Expr.evalWithin limit depth) i stmt s = .error e s') :
    s.Printed s' := by
  cases stmt with
  | assign name block =>
    have hprinted := Block.bindWith_printed hwf hi limit depth block
    rw [Stmt.execWith] at h
    have herror := Eval.eq_error_of_bind h fun b s₁ hb => ?_
    · rwa [herror] at hprinted
    · have hrelated := Block.related_of_bindWith_eq_ok hwf hi hb
      rw [hb] at hprinted
      rw [← hprinted.scopes] at hwf hi
      obtain ⟨s₂, hname, -⟩ := Eval.bindName_of_lt hwf hi name hrelated
      exact ⟨none, s₂, Eval.bind_of_eq_ok hname _⟩
  | print e =>
    rw [Stmt.execWith] at h
    have herror := Eval.eq_error_of_bind h fun v s₁ _ => ⟨_, _, rfl⟩
    have hprinted := Expr.evalWithin_printed hwf hi limit depth e
    rwa [herror] at hprinted
  | expr e =>
    rw [Stmt.execWith] at h
    have herror := Eval.eq_error_of_bind h fun v s₁ _ => ⟨_, _, rfl⟩
    have hprinted := Expr.evalWithin_printed hwf hi limit depth e
    rwa [herror] at hprinted

/-! ### Whole programs -/

namespace Counted

/-- Below the limit the counter goes up by one and comes down again. -/
theorem nested_of_lt {limit c : Nat} (hc : c < limit) {α : Type} {R : α → α → Prop}
    {P : State → Prop} {x : Counted α} {s : State} {r : Result State α}
    (h : Result.Related (fun t' s' => t' = ⟨s', c + 1⟩ ∧ P s') R (x ⟨s, c + 1⟩) r) :
    Result.Related (fun t' s' => t' = ⟨s', c⟩ ∧ P s') R (nested limit x ⟨s, c⟩) r := by
  rw [nested, if_neg (Nat.not_le.mpr hc)]
  dsimp only
  generalize x _ = r' at h ⊢
  cases h with
  | ok ha h =>
    obtain ⟨rfl, hP⟩ := h
    exact .ok ha ⟨rfl, hP⟩
  | error he h =>
    obtain ⟨rfl, hP⟩ := h
    exact .error he ⟨rfl, hP⟩

/-- Counting the levels that are taken, up to a limit, is the same as counting down those that are
left. -/
theorem evals {limit rounds c : Nat} (h : limit ≤ c + rounds) :
    (counting c).Evals (eval limit rounds) (Expr.evalWithin limit (limit - c)) := by
  induction rounds generalizing c with
  | zero =>
    intro w i j _ e s hs
    rw [show limit - c = 0 by omega]
    exact .error (by simp) ⟨rfl, .refl s⟩
  | succ rounds ih =>
    intro w i j hij e s hs
    show Result.Related _ _ (nested limit (Expr.levelWith (eval limit rounds) i e) ⟨s, c⟩) _
    by_cases hc : limit ≤ c
    · rw [show limit - c = 0 by omega, nested, if_pos hc]
      exact .error (by simp) ⟨rfl, .refl s⟩
    · rw [show limit - c = limit - (c + 1) + 1 by omega]
      have hlevel := LocalSimulation.level (ih (c := c + 1) (by omega)) hij e s hs
      exact nested_of_lt (Nat.lt_of_not_le hc) hlevel

/-- **The counter of a program.** With at least as many rounds as the limit allows, a program does
the same whichever way the levels are kept, and the counter is at zero when it ends. -/
theorem run_of_atRest {s : State} (hs : s.AtRest) {limit rounds : Nat} (h : limit ≤ rounds)
    (program : Program) :
    Result.Related (fun t' s' => t' = ⟨s', 0⟩ ∧ s.Extended .root s') Eq
      (run limit rounds program ⟨s, 0⟩) (program.run limit s) :=
  LocalSimulation.foldlM_execWith (evals (c := 0) (by omega)) (w := ⟨1, .root⟩)
    ⟨rfl, rfl, Nat.one_pos⟩ program none s hs.alive

end Counted

/-- A program leaves the evaluator at rest, whether it succeeds or not. -/
theorem State.AtRest.run {s : State} (hs : s.AtRest) (limit : Nat) (program : Program) :
    (Result.state (program.run limit s)).AtRest :=
  hs.extended (Counted.run_of_atRest hs (Nat.le_refl limit) program).state.2

/-- **Between runs the evaluator is at rest.** -/
theorem Program.freshRuns_atRest (runs : List (Nat × Program)) : (freshRuns runs).2.AtRest := by
  suffices key : ∀ s : State, s.AtRest →
      (runAll (fun limit program => program.run limit) runs s).2.AtRest from
    key .initial State.atRest_initial
  induction runs with
  | nil => exact fun s hs => hs
  | cons first rest ih =>
    intro s hs
    have hnext := hs.run first.1 first.2
    simp only [runAll]
    generalize Program.run first.1 first.2 s = r at hnext ⊢
    cases r with
    | ok v s' => exact ih s' hnext
    | error e s' => exact ih s' hnext

end

end Blockscript
