import Blockscript.Proofs.Frame

/-!
# A higher limit only lets evaluation go on

The limit on nested evaluations decides where an evaluation is cut off, and nothing else. If a
program ends of its own accord under some limit, with a value or with an error, it does the same
under every higher one. If it is cut off, a higher limit lets it run further, but what it had
printed by then is printed all the same.

## The shape of the argument

The two runs are in the same state until the lower one is cut off, and from there on nothing is
known about the higher one but that what it has printed stays printed. So the relation between two
outcomes has to say something about the higher run on its own: it must be possible to carry on
there although the lower run has no value to carry on with. That is why `Result.Deeper.cutOff` asks
for a value that the lower run could have had.

## Main definitions

* `Result.Deeper` : what a higher limit may change about an outcome.
* `deepening` : evaluations under two limits, as a simulation.

## Main results

* `deepening_evalWithin` : more levels only let the evaluation of an expression go on.
* `Program.run_of_limit_le` : the headline, for whole programs.
-/

namespace Blockscript

/-! ### Outcomes under two limits -/

/-- The outcome on the right is that on the left, unless the left run was cut off at the limit. Then
the right run has printed at least as much. In any case it ends in a state that has `P`. -/
inductive Result.Deeper {α : Type} (limit : Nat) (P : State → Prop) (R : α → α → Prop) :
    Result State α → Result State α → Prop where
  | ok {a b : α} {s : State} (ha : R a b) (hs : P s) : Deeper limit P R (.ok a s) (.ok b s)
  | error {e : EvalError} {s : State} (he : ∀ l, e ≠ .recursionLimit l) (hs : P s) :
    Deeper limit P R (.error e s) (.error e s)
  | cutOff {s : State} {r : Result State α} (hout : s.output.toList <+: r.state.output.toList)
    (hr : P r.state) (hvalue : ∀ b t, r = .ok b t → ∃ a, R a b) :
    Deeper limit P R (.error (.recursionLimit limit) s) r

namespace Result.Deeper

variable {α β : Type} {limit : Nat} {P Q : State → Prop} {R : α → α → Prop} {S : β → β → Prop}

/-- The state in which the right run ends. -/
theorem right {r r' : Result State α} (h : Deeper limit P R r r') : P r'.state := by
  cases h with
  | ok _ hs => exact hs
  | error _ hs => exact hs
  | cutOff _ hr _ => exact hr

/-- A value of the right run is related to some value. -/
theorem right_value {r : Result State α} {b : α} {t : State}
    (h : Deeper limit P R r (.ok b t)) : ∃ a, R a b := by
  cases h with
  | ok ha _ => exact ⟨_, ha⟩
  | cutOff _ _ hvalue => exact hvalue b t rfl

theorem imp {r r' : Result State α} (h : Deeper limit P R r r') (hP : ∀ s, P s → Q s) :
    Deeper limit Q R r r' := by
  cases h with
  | ok ha hs => exact .ok ha (hP _ hs)
  | error he hs => exact .error he (hP _ hs)
  | cutOff hout hr hvalue => exact .cutOff hout (hP _ hr) hvalue

/-- Both runs go on, each step with `T` between the states around it. If the left run is cut off
already, the right one goes on alone. -/
theorem bind {T : State → State → Prop}
    (htrans : ∀ {s₁ s₂ s₃}, T s₁ s₂ → T s₂ s₃ → T s₁ s₃)
    (hgrow : ∀ {s₁ s₂}, T s₁ s₂ → s₁.output.toList <+: s₂.output.toList)
    {x y : Eval α} {f g : α → Eval β} {s : State} (hx : Deeper limit (T s) R (x s) (y s))
    (hf : ∀ a b t, R a b → T s t → Deeper limit (T t) S (f a t) (g b t)) :
    Deeper limit (T s) S ((x >>= f) s) ((y >>= g) s) := by
  simp only [Bind.bind, EStateM.bind]
  generalize x s = r, y s = r' at hx ⊢
  cases hx with
  | ok ha hs => exact (hf _ _ _ ha hs).imp fun _ => htrans hs
  | error he hs => exact .error he hs
  | cutOff hout hr hvalue =>
    cases r' with
    | error e t => exact .cutOff hout hr (by simp)
    | ok b t =>
      obtain ⟨a, ha⟩ := hvalue b t rfl
      have hnext := hf a b t ha hr
      refine .cutOff (hout.trans (hgrow hnext.right)) (htrans hr hnext.right) fun b' t' hb' => ?_
      replace hb' : g b t = .ok b' t' := hb'
      rw [hb'] at hnext
      exact hnext.right_value

/-- Both runs are followed by the same change of the state, in which what has been printed stays. -/
theorem mapState {r r' : Result State α} (h : Deeper limit P R r r') {f : State → State}
    (houtput : ∀ s, (f s).output = s.output) (hf : ∀ s, P s → Q (f s)) :
    Deeper limit Q R (Result.mapState f r) (Result.mapState f r') := by
  cases h with
  | ok ha hs => exact .ok ha (hf _ hs)
  | error he hs => exact .error he (hf _ hs)
  | cutOff hout hr hvalue =>
    refine .cutOff ?_ ?_ fun b t hb => ?_
    · rw [Result.state_mapState, houtput, houtput]
      exact hout
    · rw [Result.state_mapState]
      exact hf _ hr
    · cases r' with
      | ok b' t' =>
        cases hb
        exact hvalue b t' rfl
      | error e t' => cases hb

/-! ### The steps under two limits -/

section Steps

variable {s : State} {n : Nat} {i : Scope.Index}

theorem lookup (h : s.scopes.Alive n) (hi : i < n) (name : String) :
    Deeper limit s.Printed (Binding.Related (Scope.Live n)) (Eval.lookup i name s)
      (Eval.lookup i name s) := by
  rcases Eval.lookup_of_lt h hi name with ⟨b, hlookup, hb⟩ | hlookup
  · rw [hlookup]
    exact .ok hb (.refl s)
  · rw [hlookup]
    exact .error (by simp) (.refl s)

theorem bindName (h : s.scopes.Alive n) (hi : i < n) (name : String) {b : Binding}
    (hb : Binding.Related (fun k l => k = i ∧ l = i) b b) :
    Deeper limit (s.Extended i) Eq (Eval.bindName i name b s) (Eval.bindName i name b s) := by
  rw [← h.size_eq] at hi
  obtain ⟨s', hbind, hextended⟩ := Eval.bindName_of_lt h.toWellFormed hi name hb
  rw [hbind]
  exact .ok rfl hextended

/-- A new scope, in which the higher run may go on when the lower one is cut off. -/
theorem inNewScope (h : s.scopes.Alive n) (hi : i < n) {bs : Bindings}
    (hb : bs.Related (Scope.Live n) bs) {f g : Scope.Index → Eval α}
    (hf : ∀ s₁ : State, s₁.scopes.Alive (n + 1) →
      Deeper limit (s₁.Extended n) R (f n s₁) (g n s₁)) :
    Deeper limit s.Printed R (Eval.inNewScope i bs f s) (Eval.inNewScope i bs g s) := by
  have hinner := hf { s with scopes := (s.scopes.push i bs).2 } (h.push hi hb)
  obtain ⟨hwf, rfl⟩ := h
  rw [Eval.inNewScope_eq, Eval.inNewScope_eq]
  exact hinner.mapState (fun _ => rfl) fun s₁ h₁ => h₁.dropFrom hwf.size_pos

end Steps

end Result.Deeper

/-! ### The simulation -/

/-- **Evaluation under two limits.** As long as the lower run is not cut off, the two are in the
same state. -/
def deepening (limit : Nat) : LocalSimulation Eval Eval where
  World := Standpoint
  Same w := Scope.Live w.size
  Here := Standpoint.Here
  same_of_here := @Standpoint.Here.live
  Still w _ R x y := ∀ s : State, s.scopes.Alive w.size →
    Result.Deeper limit s.Printed R (x s) (y s)
  Rel w _ R x y := ∀ s : State, s.scopes.Alive w.size →
    Result.Deeper limit (s.Extended w.scope) R (x s) (y s)
  rel_of_still h s hs := (h s hs).imp fun _ h' => h'.extended hs.toWellFormed _
  pure h s _ := .ok h (.refl s)
  still_bind hx hf s hs :=
    (hx s hs).bind .trans State.Printed.output fun a b t hab ht => hf a b hab t (ht.alive hs)
  bind hx hf s hs :=
    (hx s hs).bind .trans State.Extended.output fun a b t hab ht => hf a b hab t (ht.alive hs)
  mismatch _ s _ := .error (by simp) (.refl s)
  arity _ _ _ s _ := .error (by simp) (.refl s)
  lookup h name s hs := by
    obtain ⟨rfl, hi⟩ := h
    exact Result.Deeper.lookup hs hi name
  bindName h name b b' hb s hs := by
    obtain ⟨rfl, rfl, hi⟩ := h
    obtain rfl := hb.eq fun h => h.1.trans h.2.symm
    exact Result.Deeper.bindName hs hi name hb
  emit text s _ := .ok rfl (s.printed_emit text)
  inNewScope {w i j} h bs cs hb α R f g hf s hs := by
    obtain ⟨rfl, hi⟩ := h
    obtain rfl := hb.eq fun h => h.1
    exact Result.Deeper.inNewScope hs hi hb fun s₁ hs₁ =>
      @hf ⟨w.size + 1, w.size⟩ _ _ ⟨rfl, rfl, Nat.lt_succ_self _⟩ s₁ hs₁

/-- More levels only let the evaluation of an expression go on. -/
theorem deepening_evalWithin {limit limit' depth depth' : Nat} (h : depth ≤ depth') :
    (deepening limit).Evals (Expr.evalWithin limit depth) (Expr.evalWithin limit' depth') := by
  induction depth generalizing depth' with
  | zero =>
    intro w i j hij e s hs
    obtain ⟨rfl, -, hi⟩ := hij
    rw [← hs.size_eq] at hi
    have hprinted := Expr.evalWithin_printed hs.toWellFormed hi limit' depth' e
    exact .cutOff hprinted.output hprinted fun b _ _ => ⟨b, rfl⟩
  | succ depth ih =>
    obtain ⟨k, rfl⟩ : ∃ k, depth' = k + 1 := ⟨depth' - 1, by omega⟩
    exact LocalSimulation.level (ih (Nat.le_of_succ_le_succ h))

/-! ### Programs -/

namespace Program

/-- The run under the lower limit and the run under the higher one. -/
theorem run_deeper {s : State} (hs : s.AtRest) (program : Program) {limit limit' : Nat}
    (h : limit ≤ limit') :
    Result.Deeper limit (s.Extended .root) Eq (program.run limit s) (program.run limit' s) :=
  LocalSimulation.foldlM_execWith (deepening_evalWithin h) (w := ⟨1, .root⟩)
    ⟨rfl, rfl, Nat.one_pos⟩ program none s hs.alive

/-- **A higher limit only lets evaluation go on.** From any state of an evaluator that is not
running:

* a program that does not run into the limit has the same outcome under every higher limit: the same
  value or error, the same output and the same bindings;
* a program that runs into the limit reports that very limit, and what it has printed by then is the
  beginning of what it prints under a higher one. -/
theorem run_of_limit_le {s : State} (hs : s.AtRest) (program : Program) {limit limit' : Nat}
    (h : limit ≤ limit') :
    ((∀ l s', program.run limit s ≠ .error (.recursionLimit l) s') →
      program.run limit' s = program.run limit s) ∧
    ∀ l s', program.run limit s = .error (.recursionLimit l) s' → l = limit ∧
      s'.output.toList <+: (Result.state (program.run limit' s)).output.toList := by
  have hdeeper := run_deeper hs program h
  generalize program.run limit s = r, program.run limit' s = r' at hdeeper ⊢
  cases hdeeper with
  | ok hv _ =>
    subst hv
    exact ⟨fun _ => rfl, by simp⟩
  | error he _ =>
    refine ⟨fun _ => rfl, fun l s' hl => ?_⟩
    cases hl
    exact absurd rfl (he l)
  | cutOff hout _ _ =>
    refine ⟨fun hne => absurd rfl (hne _ _), fun l s' hl => ?_⟩
    cases hl
    exact ⟨rfl, hout⟩

/-- A block that prints its argument and then goes on with the next number, without end. -/
def climb : Program :=
  [.assign "climb" ⟨["n"], [.print (.ref "n" [])],
    .ref "climb" [.binary .add (.ref "n" []) (.int 1)]⟩]

/-- The climb from 7 is cut off by a limit of 5 levels, and printed what a limit of 9 levels lets it
print first. -/
theorem run_climb_of_limit_le :
    (freshRuns [(0, climb)]).2.AtRest ∧ 5 ≤ 9 ∧
      ∃ s', Program.run 5 [.expr (.ref "climb" [.int 7])] (freshRuns [(0, climb)]).2 =
          .error (.recursionLimit 5) s' ∧
        s'.output.toList = ["7", "8", "9"] ∧
        s'.output.toList <+: (Result.state (Program.run 9 [.expr (.ref "climb" [.int 7])]
          (freshRuns [(0, climb)]).2)).output.toList := by
  have hle : 5 ≤ 9 := by decide
  refine ⟨freshRuns_atRest _, hle, _, rfl, by decide, ?_⟩
  exact ((run_of_limit_le (freshRuns_atRest _) _ hle).2 5 _ rfl).2

end Program

end Blockscript
