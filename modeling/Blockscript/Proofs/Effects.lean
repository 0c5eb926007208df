import Blockscript.Proofs.Frame

/-!
# The effect of a statement

The evaluation of an expression only prints, and so does a statement that fails. This module says
what is left: what a statement does to the state when it succeeds. A statement that binds a name
does so in the scope in which it is executed. It hides what the name stands for further out, and
changes nothing there.

The levels of nesting are counted in the state here, as in `Counted`, so that it can be said of the
counter too that it comes back.

## Main definitions

* `State.printing` : a state with more texts printed.
* `Scopes.Shadows` : a name has been bound in a scope, and nothing else has changed.
* `Stmt.Effect` : what a statement may do to a state.

## Main results

* `Scopes.WellFormed.shadows` : to bind a name shadows it and changes nothing else.
* `Stmt.effect_execWith` : a statement has such an effect.
* `evaluation_frame` : the headline, for expressions and statements, with the counter.
-/

namespace Blockscript

/-! ### More output -/

/-- The state after more texts have been printed. -/
def State.printing (s : State) (texts : Array String) : State :=
  { s with output := s.output ++ texts }

namespace State

variable {s s' : State}

@[simp] theorem printing_scopes (s : State) (texts : Array String) :
    (s.printing texts).scopes = s.scopes := rfl

@[simp] theorem printing_output (s : State) (texts : Array String) :
    (s.printing texts).output = s.output ++ texts := rfl

theorem printing_printing (s : State) (texts texts' : Array String) :
    (s.printing texts).printing texts' = s.printing (texts ++ texts') := by
  simp [printing, Array.append_assoc]

theorem printing_emit (s : State) (texts : Array String) (text : String) :
    { s.printing texts with output := (s.printing texts).output.push text } =
      s.printing (texts.push text) := by
  simp [printing]

/-- A state in which only something has been printed, with what that is. -/
theorem Printed.exists_printing (h : s.Printed s') : ∃ texts, s' = s.printing texts := by
  obtain ⟨a, out⟩ := s
  obtain ⟨a', out'⟩ := s'
  obtain ⟨hscopes, texts, htexts⟩ := h
  change a' = a at hscopes
  change out.toList ++ texts = out'.toList at htexts
  refine ⟨texts.toArray, ?_⟩
  rw [hscopes, printing]
  congr 1
  apply Array.toList_inj.mp
  rw [← htexts]
  simp

end State

/-! ### Binding a name -/

/-- The arena `a'` is `a` with `name` bound to `b` in the scope `i`. There the name is hidden, and
everything else is as it was. -/
structure Scopes.Shadows (a a' : Scopes) (i : Scope.Index) (name : String) (b : Binding) :
    Prop where
  /-- The same scopes are alive. -/
  size : a'.size = a.size
  /-- All other scopes are the same, in particular those in which `i` lies. -/
  others : ∀ k ≠ i, a'.frames[k]? = a.frames[k]?
  /-- The scope itself lies where it was, and binds no other name anew. -/
  here : ∃ f g, a.frames[i]? = some f ∧ a'.frames[i]? = some g ∧ g.outer = f.outer ∧
    ∀ other, g.bindings.find? other = if other = name then some b else f.bindings.find? other
  /-- Looked up in the scope, the name stands for what it was bound to. -/
  lookup_here : ∀ other,
    a'.lookup i other = if other = name then .ok (some b) else a.lookup i other
  /-- Looked up in an older scope, as are those further out, it stands for what it stood for. -/
  lookup_older : ∀ k < i, ∀ other, a'.lookup k other = a.lookup k other

/-- **To bind a name is to shadow it.** -/
theorem Scopes.WellFormed.shadows {a : Scopes} (h : a.WellFormed) {i : Scope.Index}
    (hi : i < a.size) (name : String) {b : Binding}
    (hb : Binding.Related (fun k l => k = i ∧ l = i) b b) :
    ∃ a', a.insert i name b = .ok a' ∧ a.Shadows a' i name b := by
  obtain ⟨a', hinsert, hsize, -⟩ := h.insert hi name hb.captured_le
  refine ⟨a', hinsert, hsize, ?_, ?_, h.lookup_insert_self hi hinsert, ?_⟩
  · intro k hk
    rw [getElem?_of_insert hinsert, if_neg hk]
  · obtain ⟨f, hf⟩ := getElem?_eq_some_iff_lt.mpr hi
    refine ⟨f, { f with bindings := f.bindings.insert name b }, hf, ?_, rfl, ?_⟩
    · rw [getElem?_of_insert hinsert, if_pos rfl, hf]
      rfl
    · exact fun other => Bindings.find?_insert f.bindings name other b
  · intro k hk other
    exact h.lookup_insert_of_lt hi hk hinsert other

/-- In a live scope a name can be bound to a value, or to a block closed over that scope; then it is
shadowed. -/
theorem Eval.bindName_shadows {s : State} (hwf : s.scopes.WellFormed) {i : Scope.Index}
    (hi : i < s.scopes.size) (name : String) {b : Binding}
    (hb : Binding.Related (fun k l => k = i ∧ l = i) b b) :
    ∃ a, Eval.bindName i name b s = .ok () { s with scopes := a } ∧
      s.Extended i { s with scopes := a } ∧ s.scopes.Shadows a i name b := by
  obtain ⟨a, hinsert, hshadows⟩ := hwf.shadows hi name hb
  obtain ⟨s', hbind, hextended⟩ := Eval.bindName_of_lt hwf hi name hb
  have hname : Eval.bindName i name b s = .ok () { s with scopes := a } := by
    rw [Eval.bindName, hinsert]
  obtain ⟨-, rfl⟩ := EStateM.Result.ok.inj (hbind.symm.trans hname)
  exact ⟨a, hname, hextended, hshadows⟩

/-! ### Statements -/

/-- What a statement does to the state `s` when it is executed in the scope `i`, with `eval` as the
evaluator of expressions. -/
inductive Stmt.Effect (eval : ExprEval Eval) (i : Scope.Index) (s : State) :
    Stmt → Result State (Option Value) → Prop where
  /-- A statement that fails has printed at most. -/
  | failed (stmt : Stmt) (e : EvalError) (texts : Array String) :
    Effect eval i s stmt (.error e (s.printing texts))
  /-- The value of an expression is printed after what its evaluation prints. -/
  | printed (e : Expr) {v : Value} {texts : Array String}
    (hv : eval i e s = .ok v (s.printing texts)) :
    Effect eval i s (.print e) (.ok none (s.printing (texts.push v.text)))
  /-- A bare expression has a value, and its evaluation has printed at most. -/
  | evaluated (e : Expr) {v : Value} {texts : Array String}
    (hv : eval i e s = .ok v (s.printing texts)) :
    Effect eval i s (.expr e) (.ok (some v) (s.printing texts))
  /-- One name is bound, in the scope of the statement. -/
  | bound (name : String) (block : Block) {b : Binding} {texts : Array String} {a : Scopes}
    (hb : Block.bindWith eval i block s = .ok b (s.printing texts))
    (ha : s.scopes.Shadows a i name b) :
    Effect eval i s (.assign name block) (.ok none { s.printing texts with scopes := a })

/-- What is bound by a statement that binds a name and succeeds. -/
theorem Stmt.Effect.exists_shadows {eval : ExprEval Eval} {i : Scope.Index} {s s' : State}
    {name : String} {block : Block} {r : Result State (Option Value)} {v : Option Value}
    (h : Stmt.Effect eval i s (.assign name block) r) (hr : r = .ok v s') :
    ∃ b texts, Block.bindWith eval i block s = .ok b (s.printing texts) ∧
      s.scopes.Shadows s'.scopes i name b := by
  cases h with
  | failed => simp at hr
  | bound _ _ hb ha =>
    obtain ⟨-, rfl⟩ := EStateM.Result.ok.inj hr
    exact ⟨_, _, hb, ha⟩

section

variable {s : State} {i : Scope.Index}

/-- An expression that has a value has printed at most. -/
theorem Expr.exists_printing_of_evalWithin_eq_ok (hwf : s.scopes.WellFormed)
    (hi : i < s.scopes.size) {limit depth : Nat} {e : Expr} {v : Value} {s' : State}
    (h : Expr.evalWithin (m := Eval) limit depth i e s = .ok v s') :
    ∃ texts, s' = s.printing texts := by
  have hprinted := Expr.evalWithin_printed hwf hi limit depth e
  rw [h] at hprinted
  exact hprinted.exists_printing

/-- **The effect of a statement.** -/
theorem Stmt.effect_execWith (hwf : s.scopes.WellFormed) (hi : i < s.scopes.size)
    (limit depth : Nat) (stmt : Stmt) :
    Stmt.Effect (Expr.evalWithin limit depth) i s stmt
      (Stmt.execWith (m := Eval) (Expr.evalWithin limit depth) i stmt s) := by
  cases hrun : Stmt.execWith (m := Eval) (Expr.evalWithin limit depth) i stmt s with
  | error e s' =>
    obtain ⟨texts, rfl⟩ := (Stmt.printed_of_execWith_error hwf hi hrun).exists_printing
    exact .failed stmt e texts
  | ok v s' =>
    cases stmt with
    | assign name block =>
      rw [Stmt.execWith] at hrun
      obtain ⟨b, s₁, hb, hrun⟩ := Eval.exists_of_bind_eq_ok hrun
      have hprinted := Block.bindWith_printed hwf hi limit depth block
      rw [hb] at hprinted
      obtain ⟨texts, rfl⟩ := hprinted.exists_printing
      have hrelated := Block.related_of_bindWith_eq_ok hwf hi hb
      obtain ⟨a, hname, -, hshadows⟩ :=
        @Eval.bindName_shadows (s.printing texts) hwf i hi name b hrelated
      obtain ⟨_, s₂, hbind, hreturn⟩ := Eval.exists_of_bind_eq_ok hrun
      obtain ⟨-, rfl⟩ := EStateM.Result.ok.inj (hname.symm.trans hbind)
      obtain ⟨rfl, rfl⟩ := EStateM.Result.ok.inj hreturn
      exact .bound name block hb hshadows
    | print e =>
      rw [Stmt.execWith] at hrun
      obtain ⟨w, s₁, hw, hrun⟩ := Eval.exists_of_bind_eq_ok hrun
      obtain ⟨texts, rfl⟩ := Expr.exists_printing_of_evalWithin_eq_ok hwf hi hw
      obtain ⟨rfl, rfl⟩ := EStateM.Result.ok.inj hrun
      have heffect := Stmt.Effect.printed e hw
      rwa [← State.printing_emit] at heffect
    | expr e =>
      rw [Stmt.execWith] at hrun
      obtain ⟨w, s₁, hw, hrun⟩ := Eval.exists_of_bind_eq_ok hrun
      obtain ⟨texts, rfl⟩ := Expr.exists_printing_of_evalWithin_eq_ok hwf hi hw
      obtain ⟨rfl, rfl⟩ := EStateM.Result.ok.inj hrun
      exact .evaluated e hw

end

/-! ### The counter -/

/-- The same outcome, with the counter of nested evaluations at `c`. -/
def Result.withCounter {α : Type} (c : Nat) : Result State α → Result CountedState α
  | .ok a s => .ok a ⟨s, c⟩
  | .error e s => .error e ⟨s, c⟩

/-- Outcomes that agree up to the counter, which is where it was. -/
theorem Result.Related.eq_withCounter {α : Type} {c : Nat} {P : State → Prop}
    {r : Result CountedState α} {r' : Result State α}
    (h : Result.Related (fun t' s' => t' = ⟨s', c⟩ ∧ P s') Eq r r') :
    r = Result.withCounter c r' := by
  cases h with
  | ok ha hs =>
    obtain ⟨rfl, -⟩ := hs
    rw [ha]
    rfl
  | error he hs =>
    obtain ⟨rfl, -⟩ := hs
    rfl

/-- **What evaluation leaves behind.** Let the arena be well-formed and the scope `i` be alive, with
`c` evaluations that have begun and not yet ended.

* When the evaluation of an expression ends, with a value or with any error, the arena is what it
  was, and texts have been added to the output at most.
* The same holds of a statement, but one that binds a name and succeeds has bound that name in the
  scope `i`, where it shadows what the name stands for further out.
* In both cases the counter of nested evaluations, if it is kept in the state, comes back to `c`. -/
theorem evaluation_frame {s : State} (hwf : s.scopes.WellFormed) {i : Scope.Index}
    (hi : i < s.scopes.size) {limit c rounds : Nat} (hrounds : limit ≤ c + rounds) :
    (∀ e : Expr,
      (∃ texts, Result.state (Expr.evalWithin (m := Eval) limit (limit - c) i e s) =
        s.printing texts) ∧
      Counted.eval limit rounds i e ⟨s, c⟩ =
        Result.withCounter c (Expr.evalWithin (m := Eval) limit (limit - c) i e s)) ∧
    ∀ stmt : Stmt,
      Stmt.Effect (Expr.evalWithin limit (limit - c)) i s stmt
        (Stmt.execWith (m := Eval) (Expr.evalWithin limit (limit - c)) i stmt s) ∧
      Stmt.execWith (m := Counted) (Counted.eval limit rounds) i stmt ⟨s, c⟩ =
        Result.withCounter c
          (Stmt.execWith (m := Eval) (Expr.evalWithin limit (limit - c)) i stmt s) := by
  have hevals : (counting c).Evals (Counted.eval limit rounds)
      (Expr.evalWithin limit (limit - c)) := Counted.evals hrounds
  have hhere : Standpoint.Here ⟨s.scopes.size, i⟩ i i := ⟨rfl, rfl, hi⟩
  refine ⟨fun e => ⟨?_, ?_⟩, fun stmt => ⟨Stmt.effect_execWith hwf hi limit _ stmt, ?_⟩⟩
  · exact (Expr.evalWithin_printed hwf hi limit (limit - c) e).exists_printing
  · exact (hevals hhere e s ⟨hwf, rfl⟩).eq_withCounter
  · exact (LocalSimulation.execWith hevals hhere stmt s ⟨hwf, rfl⟩).eq_withCounter

/-- A root that binds `x` to 1 and `f` to a block that prints its argument and adds `x` to it, and
an empty scope inside it. -/
def State.insideRoot : State where
  scopes := ((Program.freshRuns [(1, [.assign "x" ⟨[], [], .int 1⟩,
    .assign "f" ⟨["n"], [.print (.ref "n" [])],
      .binary .add (.ref "n" []) (.ref "x" [])⟩])]).2.scopes.push .root .empty).2
  output := #[]

theorem State.wellFormed_insideRoot : State.insideRoot.scopes.WellFormed := by
  have hrest := Program.freshRuns_atRest [(1, [.assign "x" ⟨[], [], .int 1⟩,
    .assign "f" ⟨["n"], [.print (.ref "n" [])], .binary .add (.ref "n" []) (.ref "x" [])⟩])]
  exact hrest.wellFormed.push hrest.wellFormed.size_pos (by simp)

/-- `let x = f x;` inside the root prints, and hides the `x` of the root without changing it. -/
theorem evaluation_frame_insideRoot :
    State.insideRoot.scopes.WellFormed ∧ 1 < State.insideRoot.scopes.size ∧ 6 ≤ 2 + 4 ∧
      ∃ t, Stmt.execWith (m := Counted) (Counted.eval 6 4) 1
          (.assign "x" ⟨[], [], .ref "f" [.ref "x" []]⟩) ⟨State.insideRoot, 2⟩ = .ok none t ∧
        t.depth = 2 ∧ t.output.toList = ["1"] ∧
        State.insideRoot.scopes.Shadows t.scopes 1 "x" (.value (.int 2)) ∧
        t.scopes.lookup .root "x" = .ok (some (.value (.int 1))) := by
  have hlive : 1 < State.insideRoot.scopes.size := by decide
  have hrounds : 6 ≤ 2 + 4 := by decide
  obtain ⟨heffect, hcounted⟩ := (evaluation_frame State.wellFormed_insideRoot hlive hrounds).2
    (.assign "x" ⟨[], [], .ref "f" [.ref "x" []]⟩)
  obtain ⟨b, texts, hb, hshadows⟩ := Stmt.Effect.exists_shadows heffect rfl
  have hvalue : Result.outcome (Block.bindWith (m := Eval) (Expr.evalWithin 6 (6 - 2)) 1
      ⟨[], [], .ref "f" [.ref "x" []]⟩ State.insideRoot) = .ok (.value (.int 2)) := rfl
  rw [hb] at hvalue
  obtain rfl := Except.ok.inj hvalue
  refine ⟨State.wellFormed_insideRoot, hlive, hrounds, _, hcounted.trans rfl, rfl, by decide,
    hshadows, ?_⟩
  exact (hshadows.lookup_older .root Nat.one_pos "x").trans rfl

end Blockscript
