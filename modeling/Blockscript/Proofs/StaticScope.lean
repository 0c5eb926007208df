import Blockscript.Proofs.Frame

/-!
# Closed programs never meet an unbound name

A program is closed if every name in it is visible where it stands. That can be checked by walking
through the program once, with the list of names that are visible so far. This module shows that the
check suffices: the evaluation of a closed program never comes to a name without a binding, with any
limit.

A block is checked where it is defined. It runs later, possibly under another name and many calls
away; so the arena must remember the check. Every closure that is bound in a live scope was found
closed under names each of which is either one of its parameters or bound on the way out from the
scope that it has captured. Opening a scope, binding a name and dropping the youngest scope keep
this true, because none of them takes a binding away from an older scope.

## Main definitions

* `Expr.closed`, `Stmt.closed`, `Block.closed`, `Program.closed` : the check.
* `Scopes.Binds` : a name is bound on the way out from a scope.
* `Closure.Closed`, `Scopes.Sound` : what the arena remembers of the check.
* `Scopes.Covers` : in a scope of a sound arena the visible names are bound.
* `Result.Bound` : an outcome other than an unbound name.

## Main results

* `Scopes.Binds.exists_lookup` : looking up a name that is bound finds something.
* `Scopes.Sound.push`, `Scopes.Covers.insert` : what the operations keep.
* `Expr.bound_invokeWith` : a block that was found closed can be invoked from anywhere.
* `Expr.safe_evalWithin` : a closed expression does not meet an unbound name.
* `Program.run_ne_unbound_of_closed` : the headline, for whole programs.
-/

namespace Blockscript

/-! ### The check -/

mutual

/-- Every name in an expression, those in arguments included, is visible. -/
def Expr.closed (visible : List String) : Expr → Bool
  | .int _ => true
  | .float _ => true
  | .str _ => true
  | .ref name args => visible.contains name && Expr.allClosed visible args
  | .binary _ lhs rhs => Expr.closed visible lhs && Expr.closed visible rhs

/-- Every name in several expressions is visible. -/
def Expr.allClosed (visible : List String) : List Expr → Bool
  | [] => true
  | e :: rest => Expr.closed visible e && Expr.allClosed visible rest

end

/-- The names that are visible after a statement. -/
def Stmt.visibleAfter (visible : List String) : Stmt → List String
  | .assign name _ => name :: visible
  | .print _ => visible
  | .expr _ => visible

/-- The names that are visible in a block that is bound to `name`. A block with parameters sees
them, and itself. -/
def Block.visibleIn (visible : List String) (name : String) (block : BlockOf Stmt) : List String :=
  if block.params = [] then visible else name :: (block.params ++ visible)

mutual

/-- Every name in a statement is visible where it stands. -/
def Stmt.closed (visible : List String) : Stmt → Bool
  | .assign name block => Block.closed (Block.visibleIn visible name block) block
  | .print e => Expr.closed visible e
  | .expr e => Expr.closed visible e

/-- Every name in a block is visible where it stands. What the body binds is visible from the next
statement of the block to its tail. -/
def Block.closed (visible : List String) : BlockOf Stmt → Bool
  | ⟨_, body, tail⟩ =>
    Stmt.allClosed visible body && Expr.closed (body.foldl Stmt.visibleAfter visible) tail

/-- Every name in several statements is visible where it stands. -/
def Stmt.allClosed (visible : List String) : List Stmt → Bool
  | [] => true
  | stmt :: rest => Stmt.closed visible stmt && Stmt.allClosed (stmt.visibleAfter visible) rest

end

/-- Every name in a program is visible where it stands, if none is visible at the beginning. -/
def Program.closed (program : Program) : Bool :=
  Stmt.allClosed [] program

/-! ### Names that are bound on the way out -/

namespace Scopes

variable {a a' : Scopes} {i : Scope.Index} {name : String}

/-- A name is bound in a scope, or in one of those around it. -/
inductive Binds (a : Scopes) (name : String) : Scope.Index → Prop where
  | here {i : Scope.Index} {f : Scope} {b : Binding} (hf : a.frames[i]? = some f)
    (hb : f.bindings.find? name = some b) : Binds a name i
  | outward {i o : Scope.Index} {f : Scope} (hf : a.frames[i]? = some f) (ho : f.outer = some o)
    (h : Binds a name o) : Binds a name i

/-- A name that is bound in one arena is bound in another in which every scope has the same outer
scope and binds at least as much. -/
theorem Binds.mono (h : a.Binds name i)
    (hframe : ∀ (k : Scope.Index) (f : Scope), a.frames[k]? = some f →
      ∃ g : Scope, a'.frames[k]? = some g ∧ g.outer = f.outer ∧
        ∀ b, f.bindings.find? name = some b → ∃ c, g.bindings.find? name = some c) :
    a'.Binds name i := by
  induction h with
  | here hf hb =>
    obtain ⟨g, hg, -, hbindings⟩ := hframe _ _ hf
    obtain ⟨c, hc⟩ := hbindings _ hb
    exact .here hg hc
  | outward hf ho _ ih =>
    obtain ⟨g, hg, houter, -⟩ := hframe _ _ hf
    exact .outward hg (houter.trans ho) ih

theorem Binds.push (h : a.Binds name i) (outer : Scope.Index) (bindings : Bindings) :
    (a.push outer bindings).2.Binds name i := by
  refine h.mono fun k f hf => ⟨f, ?_, rfl, fun b hb => ⟨b, hb⟩⟩
  rw [getElem?_push, if_neg (Nat.ne_of_lt (lt_size hf)), hf]

theorem Binds.insert (h : a.Binds name i) {id : Scope.Index} {other : String} {b : Binding}
    (hinsert : a.insert id other b = .ok a') : a'.Binds name i := by
  refine h.mono fun k f hf => ?_
  rw [getElem?_of_insert hinsert]
  by_cases hk : k = id
  · subst hk
    refine ⟨{ f with bindings := f.bindings.insert other b }, by simp [hf], rfl, fun b' hb' => ?_⟩
    rw [Bindings.find?_insert]
    by_cases hname : name = other
    · exact ⟨b, if_pos hname⟩
    · exact ⟨b', by rw [if_neg hname, hb']⟩
  · exact ⟨f, by rw [if_neg hk, hf], rfl, fun b' hb' => ⟨b', hb'⟩⟩

/-- **Looking up a name that is bound finds something.** -/
theorem Binds.exists_lookup (h : a.Binds name i) (hwf : a.WellFormed) :
    ∃ b, a.lookup i name = .ok (some b) := by
  induction h with
  | here hf hb =>
    rw [hwf.lookup_eq hf, hb]
    exact ⟨_, rfl⟩
  | @outward i o f hf ho _ ih =>
    rw [hwf.lookup_eq hf, ho]
    cases f.bindings.find? name with
    | some b => exact ⟨b, rfl⟩
    | none => exact ih

end Scopes

/-! ### What the arena remembers of the check -/

/-- A closure whose block was found closed, under names each of which is one of its parameters or
bound on the way out from the scope that it has captured. -/
def Closure.Closed (a : Scopes) (c : Closure) : Prop :=
  ∃ visible, Block.closed visible c.block = true ∧
    ∀ name ∈ visible, name ∈ c.block.params ∨ a.Binds name c.scope

/-- A binding that may be handed on: a value, or a closed closure over a live scope. -/
def Binding.Closed (a : Scopes) (b : Binding) : Prop :=
  ∀ c, b = .block c → (c.scope < a.size ∧ 1 ≤ c.arity) ∧ c.Closed a

/-- A well-formed arena in which every closure is closed. -/
structure Scopes.Sound (a : Scopes) : Prop where
  /-- The arena is well-formed. -/
  wellFormed : a.WellFormed
  /-- Every closure that is bound in a live scope is closed. -/
  closed : ∀ (i : Scope.Index) (f : Scope) (name : String) (c : Closure), a.frames[i]? = some f →
    f.bindings.find? name = some (.block c) → c.Closed a

/-- The arena is sound, and in the scope `i` the visible names are bound. -/
structure Scopes.Covers (a : Scopes) (i : Scope.Index) (visible : List String) : Prop where
  /-- The arena is sound. -/
  sound : a.Sound
  /-- The scope is alive. -/
  live : i < a.size
  /-- The visible names are bound. -/
  binds : ∀ name ∈ visible, a.Binds name i

theorem Closure.Closed.mono {a a' : Scopes} {c : Closure} (h : c.Closed a)
    (hbinds : ∀ {name}, a.Binds name c.scope → a'.Binds name c.scope) : c.Closed a' := by
  obtain ⟨visible, hclosed, hvisible⟩ := h
  exact ⟨visible, hclosed, fun name hname => (hvisible name hname).imp_right hbinds⟩

namespace Scopes

variable {a : Scopes} {i : Scope.Index} {visible : List String}

theorem covers_initial : initial.Covers .root [] := by
  refine ⟨⟨wellFormed_initial, fun i f name c hf hc => ?_⟩, by decide, by simp⟩
  obtain ⟨rfl, rfl⟩ := eq_of_getElem?_initial hf
  simp at hc

/-- A visible name stands for something that may be handed on. -/
theorem Covers.lookup (h : a.Covers i visible) {name : String} (hname : name ∈ visible) :
    ∃ b, a.lookup i name = .ok (some b) ∧ b.Closed a := by
  obtain ⟨b, hb⟩ := (h.binds name hname).exists_lookup h.sound.wellFormed
  refine ⟨b, hb, ?_⟩
  rintro c rfl
  obtain ⟨k, f, hk, hf, hc⟩ := h.sound.wellFormed.exists_frame_of_lookup h.live hb
  obtain ⟨hscope, harity⟩ := h.sound.wellFormed.captured_le k f hf name c hc
  have hlive : c.scope < a.size := Nat.lt_of_le_of_lt (Nat.le_trans hscope hk) h.live
  exact ⟨⟨hlive, harity⟩, h.sound.closed k f name c hf hc⟩

/-- Opening a scope in which the visible names are bound at once or further out. -/
theorem Sound.push (h : a.Sound) {outer : Scope.Index} (ho : outer < a.size) {bindings : Bindings}
    (hb : ∀ name b, bindings.find? name = some b → b.Closed a)
    (hvisible : ∀ name ∈ visible, (∃ b, bindings.find? name = some b) ∨ a.Binds name outer) :
    (a.push outer bindings).2.Covers a.size visible := by
  have hnew : (a.push outer bindings).2.frames[a.size]? = some ⟨bindings, some outer⟩ := by
    rw [getElem?_push, if_pos rfl]
  refine ⟨⟨h.wellFormed.push ho fun name c hc => (hb name _ hc c rfl).1, ?_⟩, by simp, ?_⟩
  · intro k f name c hf hc
    refine Closure.Closed.mono ?_ fun hbinds => hbinds.push outer bindings
    rw [getElem?_push] at hf
    split at hf
    · cases hf
      exact (hb name _ hc c rfl).2
    · exact h.closed k f name c hf hc
  · intro name hname
    rcases hvisible name hname with ⟨b, hfound⟩ | hbinds
    · exact .here hnew hfound
    · exact .outward hnew rfl (hbinds.push outer bindings)

/-- Binding a name to a value, or to a block that was found closed with that name visible. -/
theorem Covers.insert (h : a.Covers i visible) (name : String) {b : Binding}
    (hb : ∀ c, b = .block c → c.scope = i ∧ 1 ≤ c.arity ∧ ∃ inner,
      Block.closed inner c.block = true ∧
        ∀ x ∈ inner, x ∈ c.block.params ∨ x = name ∨ a.Binds x i) :
    ∃ a', a.insert i name b = .ok a' ∧ a'.Covers i (name :: visible) := by
  obtain ⟨a', hinsert, hsize, hwf⟩ := h.sound.wellFormed.insert h.live name (b := b)
    fun c hc => ⟨Nat.le_of_eq (hb c hc).1, (hb c hc).2.1⟩
  have hold : ∀ {x k}, a.Binds x k → a'.Binds x k := fun hx => hx.insert hinsert
  have hnew : a'.Binds name i := by
    obtain ⟨f, hf⟩ := getElem?_eq_some_iff_lt.mpr h.live
    have hframe := getElem?_of_insert hinsert i
    rw [if_pos rfl, hf, Option.map_some] at hframe
    exact .here hframe (b := b) (by simp [Bindings.find?_insert])
  refine ⟨a', hinsert, ⟨hwf, fun k f x c hf hc => ?_⟩, hsize ▸ h.live, ?_⟩
  · -- Only the closure that has just been bound may need the new name, for calls of itself.
    rw [getElem?_of_insert hinsert] at hf
    split at hf
    · next hk =>
      subst hk
      obtain ⟨g, hg, rfl⟩ := Option.map_eq_some_iff.mp hf
      rw [Bindings.find?_insert] at hc
      split at hc
      · obtain ⟨rfl, -, inner, hclosed, hinner⟩ := hb c (Option.some.inj hc)
        refine ⟨inner, hclosed, fun y hy => (hinner y hy).imp_right ?_⟩
        rintro (rfl | hy)
        · exact hnew
        · exact hold hy
      · exact (h.sound.closed k g x c hg hc).mono hold
    · exact (h.sound.closed k f x c hf hc).mono hold
  · intro x hx
    rcases List.mem_cons.mp hx with rfl | hx
    · exact hnew
    · exact hold (h.binds x hx)

end Scopes

/-! ### Names in the parts of an expression and of a block -/

theorem Block.visibleIn_of_params_eq_nil {visible : List String} {name : String}
    {block : BlockOf Stmt} (h : block.params = []) :
    Block.visibleIn visible name block = visible :=
  if_pos h

theorem Block.mem_visibleIn {visible : List String} {name x : String} {block : BlockOf Stmt}
    (h : x ∈ Block.visibleIn visible name block) : x ∈ block.params ∨ x = name ∨ x ∈ visible := by
  rw [Block.visibleIn] at h
  split at h
  · exact .inr (.inr h)
  · simp only [List.mem_cons, List.mem_append] at h
    tauto

namespace Expr

theorem mem_of_closed_ref {visible : List String} {name : String} {args : List Expr}
    (h : closed visible (.ref name args) = true) :
    name ∈ visible ∧ allClosed visible args = true := by
  simpa [closed] using h

theorem eq_ref_of_bareName? {e : Expr} {name : String} (h : e.bareName? = some name) :
    e = .ref name [] := by
  fun_cases bareName? e with
  | case1 => simp_all [bareName?]
  | case2 => simp_all [bareName?]

/-- The operands of a chain are closed if the chain is. -/
theorem closed_spine {visible : List String} {e : Expr} (he : closed visible e = true) :
    closed visible e.spine.1 = true ∧ ∀ step ∈ e.spine.2, closed visible step.2 = true := by
  have hbinary : ∀ op lhs rhs, closed visible (.binary op lhs rhs) = true →
      closed visible lhs = true ∧ closed visible rhs = true := by
    intro op lhs rhs h
    simpa [closed] using h
  obtain ⟨hfirst, -, hsteps⟩ := forall_spine (P := fun e => closed visible e = true)
    (Q := fun e => closed visible e = true) hbinary he
  exact ⟨hfirst, hsteps⟩

end Expr

namespace Bindings

variable {names : List String} {bs : List Binding}

/-- As many names as bindings: each of the names is bound, and whatever a name is bound to is one of
the bindings. -/
theorem find?_ofList_zip (h : bs.length = names.length) (name : String) :
    (name ∈ names → ∃ b, (ofList (names.zip bs)).find? name = some b) ∧
      ∀ b, (ofList (names.zip bs)).find? name = some b → b ∈ bs := by
  suffices key : ∀ as : Bindings,
      (name ∈ names ∨ (∃ b, as.find? name = some b) → ∃ b,
        ((names.zip bs).foldl (fun as p => as.insert p.1 p.2) as).find? name = some b) ∧
      ∀ b, ((names.zip bs).foldl (fun as p => as.insert p.1 p.2) as).find? name = some b →
        b ∈ bs ∨ as.find? name = some b by
    obtain ⟨hbound, hmem⟩ := key empty
    exact ⟨fun hname => hbound (.inl hname), fun b hb => by simpa using hmem b hb⟩
  induction names generalizing bs with
  | nil => exact fun as => ⟨by simp, fun b hb => .inr hb⟩
  | cons first names ih =>
    intro as
    obtain ⟨b, bs, rfl⟩ := List.exists_cons_of_length_eq_add_one h
    obtain ⟨hbound, hmem⟩ := ih (Nat.succ.inj h) (as.insert first b)
    rw [find?_insert] at hbound hmem
    constructor
    · intro hname
      refine hbound ?_
      by_cases hfirst : name = first
      · exact .inr ⟨b, if_pos hfirst⟩
      · simpa [hfirst] using hname
    · intro c hc
      rcases hmem c hc with hc | hc
      · exact .inl (List.mem_cons_of_mem b hc)
      · split at hc
        · exact .inl (by simp [Option.some.inj hc])
        · exact .inr hc

end Bindings

/-! ### Outcomes other than an unbound name -/

/-- The outcome is not an unbound name; and if it is a value, then it and the state are as `Q`
says. -/
def Result.Bound {α : Type} (Q : α → State → Prop) : Result State α → Prop
  | .ok a s => Q a s
  | .error e _ => ∀ name, e ≠ .unbound name

section

variable {α β : Type} {P Q : α → State → Prop} {s : State} {i : Scope.Index}
  {visible : List String}

theorem Result.Bound.imp {r : Result State α} (h : Bound P r) (hPQ : ∀ a s, P a s → Q a s) :
    Bound Q r := by
  cases r with
  | ok a s => exact hPQ a s h
  | error e s => exact h

theorem Result.Bound.bind {R : β → State → Prop} {x : Eval α} {f : α → Eval β}
    (hx : Bound P (x s)) (hf : ∀ a s', P a s' → Bound R (f a s')) : Bound R ((x >>= f) s) := by
  simp only [Bind.bind, EStateM.bind]
  generalize x s = r at hx ⊢
  cases r with
  | ok a s' => exact hf a s' hx
  | error e s' => exact hx

/-- What only prints leaves the arena as it was. -/
theorem Result.Bound.and_scopes_eq {r : Result State α} (h : Bound P r)
    (hprinted : s.Printed (Result.state r)) :
    Bound (fun a s' => s'.scopes = s.scopes ∧ P a s') r := by
  cases r with
  | ok a s' => exact ⟨hprinted.scopes, h⟩
  | error e s' => exact h

theorem Scopes.Covers.bound_lookup (h : s.scopes.Covers i visible) {name : String}
    (hname : name ∈ visible) :
    Result.Bound (fun b s' => s' = s ∧ b.Closed s.scopes) (Eval.lookup i name s) := by
  obtain ⟨b, hb, hclosed⟩ := h.lookup hname
  rw [Eval.lookup, hb]
  exact ⟨rfl, hclosed⟩

/-- A computation in a new scope, of whose end state only the value survives. -/
theorem Result.bound_inNewScope {outer : Scope.Index} {bindings : Bindings}
    {run : Scope.Index → Eval α}
    (h : Bound P (run s.scopes.size { s with scopes := (s.scopes.push outer bindings).2 })) :
    Bound (fun _ _ => True) (Eval.inNewScope outer bindings run s) := by
  simp only [Eval.inNewScope, Scopes.push_fst]
  generalize run _ _ = r at h ⊢
  cases r with
  | ok a s' => trivial
  | error e s' => exact h

end

/-! ### Evaluation in a sound arena -/

/-- An evaluator that does not meet an unbound name in a closed expression, and leaves the arena as
it was. -/
def ExprEval.Safe (eval : ExprEval Eval) : Prop :=
  ∀ {s : State} {i : Scope.Index} {visible : List String} {e : Expr}, s.scopes.Covers i visible →
    Expr.closed visible e = true → Result.Bound (fun _ s' => s'.scopes = s.scopes) (eval i e s)

section

open Result

variable {limit depth : Nat}

mutual

/-- A statement makes visible what the check says. -/
theorem Stmt.bound_execWith (h : ExprEval.Safe (Expr.evalWithin limit depth)) {s : State}
    {i : Scope.Index} {visible : List String} (hcovers : s.scopes.Covers i visible) (stmt : Stmt)
    (hclosed : Stmt.closed visible stmt = true) :
    Bound (fun _ s' => s'.scopes.Covers i (stmt.visibleAfter visible))
      (Stmt.execWith (m := Eval) (Expr.evalWithin limit depth) i stmt s) := by
  cases stmt with
  | assign name block =>
    rw [Stmt.closed] at hclosed
    rw [Stmt.execWith]
    refine (Block.bound_bindWith h hcovers block hclosed).bind fun b s₁ hb => ?_
    obtain ⟨hscopes, hblock⟩ := hb
    rw [← hscopes] at hcovers
    obtain ⟨a, hinsert, hcovers'⟩ := hcovers.insert name (b := b) fun c hc => by
      obtain ⟨rfl, harity⟩ := hblock c hc
      refine ⟨rfl, harity, _, hclosed, fun x hx => ?_⟩
      exact (Block.mem_visibleIn hx).imp_right (Or.imp_right (hcovers.binds x))
    refine Bound.bind (P := fun _ s₂ => s₂.scopes = a) ?_ fun _ s₂ hs₂ => ?_
    · show Bound _ (Eval.bindName i name b s₁)
      rw [Eval.bindName, hinsert]
      exact rfl
    · show s₂.scopes.Covers i (name :: visible)
      exact hs₂ ▸ hcovers'
  | print e =>
    rw [Stmt.closed] at hclosed
    rw [Stmt.execWith]
    refine (h hcovers hclosed).bind fun v s₁ hscopes => ?_
    show s₁.scopes.Covers i visible
    exact hscopes ▸ hcovers
  | expr e =>
    rw [Stmt.closed] at hclosed
    rw [Stmt.execWith]
    refine (h hcovers hclosed).bind fun v s₁ hscopes => ?_
    show s₁.scopes.Covers i visible
    exact hscopes ▸ hcovers

/-- The only closure that a block can become is the block itself, where it stands. -/
theorem Block.bound_bindWith (h : ExprEval.Safe (Expr.evalWithin limit depth)) {s : State}
    {i : Scope.Index} {visible : List String} (hcovers : s.scopes.Covers i visible) {name : String}
    (block : BlockOf Stmt)
    (hclosed : Block.closed (Block.visibleIn visible name block) block = true) :
    Bound (fun b s' => s'.scopes = s.scopes ∧ ∀ c, b = .block c → c = ⟨block, i⟩ ∧ 1 ≤ c.arity)
      (Block.bindWith (m := Eval) (Expr.evalWithin limit depth) i block s) := by
  refine Bound.and_scopes_eq ?_ (Block.bindWith_printed hcovers.sound.wellFormed hcovers.live ..)
  match block with
  | ⟨[], [], tail⟩ =>
    rw [Block.visibleIn_of_params_eq_nil rfl, Block.closed] at hclosed
    rw [Block.bindWith]
    refine (h hcovers (by simpa [Stmt.allClosed] using hclosed)).bind fun v s₁ _ => ?_
    exact fun c hc => by simp at hc
  | ⟨[], stmt :: body, tail⟩ =>
    rw [Block.visibleIn_of_params_eq_nil rfl, Block.closed, Bool.and_eq_true] at hclosed
    simp only [Block.bindWith]
    have hinner : (s.scopes.push i .empty).2.Covers s.scopes.size visible :=
      hcovers.sound.push hcovers.live (by simp) fun x hx => .inr (hcovers.binds x hx)
    refine (bound_inNewScope (P := fun _ _ => True) ?_).bind fun v s₁ _ => ?_
    · refine (Stmt.bound_execAllWith h hinner (stmt :: body) hclosed.1).bind fun _ s₁ hs₁ => ?_
      exact (h hs₁ hclosed.2).imp fun _ _ _ => trivial
    · exact fun c hc => by simp at hc
  | ⟨param :: params, body, tail⟩ =>
    simp only [Block.bindWith]
    rintro c ⟨⟩
    exact ⟨rfl, Nat.succ_pos _⟩

theorem Stmt.bound_execAllWith (h : ExprEval.Safe (Expr.evalWithin limit depth)) {s : State}
    {i : Scope.Index} {visible : List String} (hcovers : s.scopes.Covers i visible)
    (stmts : List Stmt)
    (hclosed : Stmt.allClosed visible stmts = true) :
    Bound (fun _ s' => s'.scopes.Covers i (stmts.foldl Stmt.visibleAfter visible))
      (Stmt.execAllWith (m := Eval) (Expr.evalWithin limit depth) i stmts s) := by
  cases stmts with
  | nil =>
    rw [Stmt.execAllWith]
    exact hcovers
  | cons stmt rest =>
    rw [Stmt.allClosed, Bool.and_eq_true] at hclosed
    rw [Stmt.execAllWith]
    exact (Stmt.bound_execWith h hcovers stmt hclosed.1).bind fun _ s₁ hcovers' =>
      Stmt.bound_execAllWith h hcovers' rest hclosed.2

end

variable {s : State} {i : Scope.Index} {visible : List String}

theorem Block.bound_runWith (h : ExprEval.Safe (Expr.evalWithin limit depth))
    (hcovers : s.scopes.Covers i visible) {block : Block}
    (hclosed : Block.closed visible block = true) :
    Bound (fun _ _ => True)
      (Block.runWith (m := Eval) (Expr.evalWithin limit depth) i block s) := by
  rw [Block.closed, Bool.and_eq_true] at hclosed
  refine (Stmt.bound_execAllWith h hcovers block.body hclosed.1).bind fun _ s₁ hcovers' => ?_
  exact (h hcovers' hclosed.2).imp fun _ _ _ => trivial

namespace Expr

/-- An argument becomes a binding that may be handed on. -/
theorem bound_argumentWith (h : ExprEval.Safe (evalWithin limit depth))
    (hcovers : s.scopes.Covers i visible) {arg : Expr} (hclosed : closed visible arg = true) :
    Bound (fun b s' => s'.scopes = s.scopes ∧ b.Closed s.scopes)
      (argumentWith (m := Eval) (evalWithin limit depth) i arg s) := by
  have hvalue : Bound (fun b s' => s'.scopes = s.scopes ∧ b.Closed s.scopes)
      ((do let v ← evalWithin limit depth i arg; return .value v : Eval Binding) s) :=
    (h hcovers hclosed).bind fun v s₁ hscopes => ⟨hscopes, fun c hc => by simp at hc⟩
  rw [argumentWith]
  cases hbare : arg.bareName? with
  | none => exact hvalue
  | some name =>
    have hname := (mem_of_closed_ref (eq_ref_of_bareName? hbare ▸ hclosed)).1
    refine (hcovers.bound_lookup hname).bind fun b s₁ hb => ?_
    obtain ⟨rfl, hb⟩ := hb
    cases b with
    | value v => exact ⟨rfl, hb⟩
    | block c =>
      have harity : 0 < c.arity := (hb c rfl).1.2
      simp only [harity, if_true]
      exact ⟨rfl, hb⟩

theorem bound_argumentsWith (h : ExprEval.Safe (evalWithin limit depth))
    (hcovers : s.scopes.Covers i visible) {args : List Expr}
    (hclosed : allClosed visible args = true) :
    Bound (fun bs s' => s'.scopes = s.scopes ∧ bs.length = args.length ∧
        ∀ b ∈ bs, b.Closed s.scopes)
      (argumentsWith (m := Eval) (evalWithin limit depth) i args s) := by
  induction args generalizing s with
  | nil => exact ⟨rfl, rfl, by simp⟩
  | cons arg rest ih =>
    rw [allClosed, Bool.and_eq_true] at hclosed
    refine (bound_argumentWith h hcovers hclosed.1).bind fun b s₁ hb => ?_
    obtain ⟨hscopes, hb⟩ := hb
    rw [← hscopes] at hcovers hb ⊢
    refine (ih hcovers hclosed.2).bind fun bs s₂ hbs => ?_
    obtain ⟨hscopes', hlength, hbs⟩ := hbs
    exact ⟨hscopes', congrArg Nat.succ hlength, List.forall_mem_cons.mpr ⟨hb, hbs⟩⟩

/-- **Invocation.** The block was found closed where it was defined. In the new scope its parameters
are bound, and all other names that the check has seen are bound further out. -/
theorem bound_invokeWith (h : ExprEval.Safe (evalWithin limit depth))
    (hcovers : s.scopes.Covers i visible) (name : String) {c : Closure}
    (hc : (Binding.block c).Closed s.scopes) {args : List Expr}
    (hclosed : allClosed visible args = true) :
    Bound (fun _ _ => True)
      (invokeWith (m := Eval) (evalWithin limit depth) i name c args s) := by
  obtain ⟨⟨hlive, -⟩, inner, hblock, hinner⟩ := hc c rfl
  rw [invokeWith]
  split
  · next harity =>
    refine (bound_argumentsWith h hcovers hclosed).bind fun bs s₁ hbs => ?_
    obtain ⟨hscopes, hlength, hbs⟩ := hbs
    have hfind := Bindings.find?_ofList_zip (hlength.trans harity)
    rw [← hscopes] at hcovers hlive hinner hbs
    refine bound_inNewScope (Block.bound_runWith h (hcovers.sound.push hlive ?_ ?_) hblock)
    · exact fun x b hb => hbs b ((hfind x).2 b hb)
    · exact fun x hx => (hinner x hx).imp_left (hfind x).1
  · exact fun x hx => by simp at hx

theorem bound_chainWith (h : ExprEval.Safe (evalWithin limit depth))
    (hcovers : s.scopes.Covers i visible) {e : Expr} (hclosed : closed visible e = true) :
    Bound (fun _ _ => True) (chainWith (m := Eval) (evalWithin limit depth) i e s) := by
  obtain ⟨hfirst, hsteps⟩ := closed_spine hclosed
  refine (h hcovers hfirst).bind fun v s₁ hscopes => ?_
  rw [← hscopes] at hcovers
  generalize e.spine.2 = steps at hsteps ⊢
  clear hscopes
  induction steps generalizing v s₁ with
  | nil => trivial
  | cons step steps ih =>
    obtain ⟨hstep, hsteps⟩ := List.forall_mem_cons.mp hsteps
    simp only [List.foldlM_cons]
    refine Bound.bind (P := fun _ s₂ => s₂.scopes = s₁.scopes) ?_ fun acc s₂ hscopes => ?_
    · refine (h hcovers hstep).bind fun rhs s₂ hscopes => ?_
      rw [Op.applyIn]
      cases step.1.apply v rhs with
      | ok v' => exact hscopes
      | error e => exact fun x hx => by simp at hx
    · exact ih acc s₂ (hscopes ▸ hcovers) hsteps

/-- **One level.** A safe evaluator of the operands gives a safe evaluator of expressions. -/
theorem safe_level (h : ExprEval.Safe (evalWithin limit depth)) :
    ExprEval.Safe (evalWithin limit (depth + 1)) := by
  intro s i visible e hcovers hclosed
  -- That the arena comes back is known of all evaluations, so only the errors are left to look at.
  have hprinted := evalWithin_printed hcovers.sound.wellFormed hcovers.live limit (depth + 1) e
  suffices key : Bound (fun _ _ => True) (levelWith (m := Eval) (evalWithin limit depth) i e s) from
    (key.and_scopes_eq hprinted).imp fun _ _ hs => hs.1
  cases e with
  | int n => trivial
  | float x => trivial
  | str t => trivial
  | ref name args =>
    obtain ⟨hname, hargs⟩ := mem_of_closed_ref hclosed
    refine (hcovers.bound_lookup hname).bind fun b s₁ hb => ?_
    obtain ⟨rfl, hb⟩ := hb
    cases b with
    | value v => trivial
    | block c => exact bound_invokeWith h hcovers name hb hargs
  | binary op lhs rhs => exact bound_chainWith h hcovers hclosed

/-- **A closed expression does not meet an unbound name,** in any scope of a sound arena in which
the visible names are bound. -/
theorem safe_evalWithin (limit depth : Nat) : ExprEval.Safe (evalWithin limit depth) := by
  induction depth with
  | zero => exact fun _ _ name hname => by simp at hname
  | succ depth ih => exact safe_level ih

end Expr

end

/-! ### Whole programs -/

/-- Statement by statement, a program keeps the arena sound and the visible names bound. -/
theorem Program.bound_run (limit : Nat) {s : State} {visible : List String}
    (hcovers : s.scopes.Covers .root visible) {program : Program}
    (hclosed : Stmt.allClosed visible program = true) :
    Result.Bound (fun _ s' => s'.scopes.Covers .root (program.foldl Stmt.visibleAfter visible))
      (program.run limit s) := by
  rw [Program.run, Program.runIn]
  generalize (none : Option Value) = last
  induction program generalizing s visible last with
  | nil => exact hcovers
  | cons stmt rest ih =>
    rw [Stmt.allClosed, Bool.and_eq_true] at hclosed
    rw [List.foldlM_cons]
    refine (Stmt.bound_execWith (Expr.safe_evalWithin limit limit) hcovers stmt hclosed.1).bind ?_
    exact fun last s₁ hcovers' => ih hcovers' hclosed.2 last

/-- **Closed programs never meet an unbound name,** whatever the limit. -/
theorem Program.run_ne_unbound_of_closed {program : Program} (h : program.closed = true)
    (limit : Nat) (name : String) (s : State) :
    program.run limit .initial ≠ .error (.unbound name) s := by
  intro hrun
  have hbound := Program.bound_run limit (s := .initial) Scopes.covers_initial h
  rw [hrun] at hbound
  exact hbound name rfl

/-- A block is handed on and called under another name, from a scope in which the name that it needs
is not visible. -/
def Program.handOn : Program :=
  [.assign "apply" ⟨["f", "n"], [], .ref "f" [.ref "n" []]⟩,
   .assign "result"
     ⟨[], [.assign "step" ⟨[], [], .int 2⟩,
       .assign "up" ⟨["n"], [.assign "m" ⟨[], [], .binary .add (.ref "n" []) (.ref "step" [])⟩],
         .ref "m" []⟩], .ref "apply" [.ref "up" [], .int 40]⟩,
   .expr (.ref "result" [])]

/-- The program is closed, and has a value. If it ends with a name that was visible inside a block
only, it is not closed, and fails. -/
theorem Program.run_handOn_ne_unbound :
    handOn.closed = true ∧
      (∀ limit name s, handOn.run limit .initial ≠ .error (.unbound name) s) ∧
      Result.outcome (handOn.run 5 .initial) = .ok (some (.int 42)) ∧
      Program.closed (handOn ++ [.expr (.ref "step" [])]) = false ∧
      Result.outcome (Program.run 5 (handOn ++ [.expr (.ref "step" [])]) .initial) =
        .error (.unbound "step") := by
  have hclosed : handOn.closed = true := by decide
  exact ⟨hclosed, run_ne_unbound_of_closed hclosed, by decide +kernel, by decide,
    by decide +kernel⟩

end Blockscript
