import Blockscript.Proofs.Frame
import Mathlib.Data.Set.Basic

/-!
# Lexical scope

What an expression evaluates to depends on the scopes that can be reached from the one in which it
is evaluated, by going outwards and by entering the closures bound there, and on no others. In
particular the scopes of the callers, which are alive too, do not matter.

Take two arenas that agree on a set of scopes that is closed under going outwards and under entering
closures. The same expression is evaluated in one of these scopes, in both. The evaluations go
through the same steps; but a scope that is opened on the way gets an index that depends on how many
scopes are alive, so the two runs agree only up to a pairing of indices. The pairing grows when a
scope is opened, and is cut back when that scope is dropped.

## What is deliberately absent

The pairing is a relation and not a function on the live scopes of one side, because most scopes of
either side have no partner. Nothing is asked of those: their contents need not even be
well-formed.

## Main definitions

* `Scopes.AgreeOn` : two arenas agree on a closed set of scopes.
* `Pairing`, `Pairing.Holds` : which scopes of two states correspond, and that they agree.

## Main results

* `Pairing.Holds.push`, `Pairing.Holds.dropFrom` : how a pairing grows and shrinks with a call.
* `pairing` : evaluations in paired scopes do the same.
* `Expr.evalWithin_eq_of_agreeOn` : the headline, for two arenas that agree on a closed set.
-/

namespace Blockscript

/-! ### Pairings -/

/-- The scopes `f`, of index `i`, and `g`, of index `j`, bind the same names to the same things and
lie in the same scope, where `same` says which index on the right stands for which on the left. What
they refer to is not younger than they are. -/
structure Scope.Paired (same : Scope.Index → Scope.Index → Prop) (i j : Scope.Index)
    (f g : Scope) : Prop where
  /-- The outer scopes correspond. -/
  outer : Option.Rel (fun k l => (k < i ∧ l < j) ∧ same k l) f.outer g.outer
  /-- Every name is bound to the same thing. -/
  bindings : ∀ name, Option.Rel (Binding.Related fun k l => k ≤ i ∧ same k l)
    (f.bindings.find? name) (g.bindings.find? name)

/-- How two states are compared. -/
structure Pairing where
  /-- The scope on the right stands for the scope on the left. -/
  same : Scope.Index → Scope.Index → Prop
  /-- The numbers of live scopes on the left and on the right. -/
  sizes : Nat × Nat
  /-- What had been printed, on the left and on the right, when the comparison began. -/
  outputs : List String × List String

/-- The paired scopes of `s` and `t` agree, and the same has been printed since the comparison
began. Scopes without a partner are unconstrained. -/
structure Pairing.Holds (w : Pairing) (s t : State) : Prop where
  /-- The numbers of live scopes. -/
  sizes : s.scopes.size = w.sizes.1 ∧ t.scopes.size = w.sizes.2
  /-- The same has been printed. -/
  output : ∃ texts, s.output.toList = w.outputs.1 ++ texts ∧ t.output.toList = w.outputs.2 ++ texts
  /-- A scope has at most one partner. -/
  unique : ∀ {i j i' j' : Nat}, w.same i j → w.same i' j' → (i = i' ↔ j = j')
  /-- Partners agree. -/
  frame : ∀ {i j : Nat}, w.same i j → ∃ f g, s.scopes.frames[i]? = some f ∧
    t.scopes.frames[j]? = some g ∧ f.Paired w.same i j g

/-- The pairing with a new scope on either side. -/
def Pairing.grow (w : Pairing) : Pairing where
  same i j := w.same i j ∨ i = w.sizes.1 ∧ j = w.sizes.2
  sizes := (w.sizes.1 + 1, w.sizes.2 + 1)
  outputs := w.outputs

theorem Scope.Paired.imp {same same' : Scope.Index → Scope.Index → Prop} {i j : Scope.Index}
    {f g : Scope} (h : f.Paired same i j g) (hsame : ∀ {k l}, k ≤ i → same k l → same' k l) :
    f.Paired same' i j g := by
  refine ⟨optionRel_imp h.outer fun hkl => ?_, fun name => ?_⟩
  · exact ⟨hkl.1, hsame (Nat.le_of_lt hkl.1.1) hkl.2⟩
  · exact optionRel_imp (h.bindings name) fun hbc => hbc.mono fun hkl =>
      ⟨hkl.1, hsame hkl.1 hkl.2⟩

namespace Pairing.Holds

variable {w : Pairing} {s t : State} {i j : Nat}

theorem lt_left (h : w.Holds s t) (hij : w.same i j) : i < w.sizes.1 := by
  obtain ⟨f, g, hf, -, -⟩ := h.frame hij
  exact h.sizes.1 ▸ Scopes.lt_size hf

theorem lt_right (h : w.Holds s t) (hij : w.same i j) : j < w.sizes.2 := by
  obtain ⟨f, g, -, hg, -⟩ := h.frame hij
  exact h.sizes.2 ▸ Scopes.lt_size hg

/-- A name stands for the same thing in paired scopes. -/
theorem lookup (h : w.Holds s t) (hij : w.same i j) (name : String) :
    ∃ b c, s.scopes.lookup i name = .ok b ∧ t.scopes.lookup j name = .ok c ∧
      Option.Rel (Binding.Related w.same) b c := by
  refine Scopes.lookup_rel (fun {i j} hij => ?_) hij
  obtain ⟨f, g, hf, hg, hfg⟩ := h.frame hij
  refine ⟨f, g, hf, hg, ?_, hfg.outer⟩
  exact optionRel_imp (hfg.bindings name) fun hbc => hbc.mono And.right

/-- Binding a name on both sides, in paired scopes. -/
theorem insert (h : w.Holds s t) (hij : w.same i j) (name : String) {b c : Binding}
    (hb : Binding.Related (fun k l => k = i ∧ l = j) b c) :
    ∃ a a', s.scopes.insert i name b = .ok a ∧ t.scopes.insert j name c = .ok a' ∧
      w.Holds { s with scopes := a } { t with scopes := a' } := by
  have hi : i < s.scopes.size := h.sizes.1 ▸ h.lt_left hij
  have hj : j < t.scopes.size := h.sizes.2 ▸ h.lt_right hij
  obtain ⟨a, ha, hsize, hframes⟩ := Scopes.insert_of_lt hi name b
  obtain ⟨a', ha', hsize', hframes'⟩ := Scopes.insert_of_lt hj name c
  refine ⟨a, a', ha, ha', ⟨hsize.trans h.sizes.1, hsize'.trans h.sizes.2⟩, h.output, h.unique,
    fun {i' j'} hij' => ?_⟩
  obtain ⟨f, g, hf, hg, hfg⟩ := h.frame hij'
  have hpair := h.unique hij' hij
  simp only [hframes, hframes']
  by_cases hi' : i' = i
  · obtain rfl : j' = j := hpair.mp hi'
    subst hi'
    refine ⟨{ f with bindings := f.bindings.insert name b },
      { g with bindings := g.bindings.insert name c }, by simp [hf], by simp [hg], hfg.outer,
      fun other => ?_⟩
    simp only [Bindings.find?_insert]
    by_cases hother : other = name
    · rw [if_pos hother, if_pos hother]
      exact .some (hb.mono fun hkl => ⟨Nat.le_of_eq hkl.1, by rw [hkl.1, hkl.2]; exact hij⟩)
    · rw [if_neg hother, if_neg hother]
      exact hfg.bindings other
  · have hj' : j' ≠ j := fun hj' => hi' (hpair.mpr hj')
    exact ⟨f, g, by rw [if_neg hi', hf], by rw [if_neg hj', hg], hfg⟩

/-- Opening a scope on both sides, in paired scopes and with paired bindings: the new scopes are
partners. -/
theorem push (h : w.Holds s t) (hij : w.same i j) {bs cs : Bindings} (hb : bs.Related w.same cs) :
    w.grow.Holds { s with scopes := (s.scopes.push i bs).2 }
      { t with scopes := (t.scopes.push j cs).2 } := by
  refine ⟨?_, h.output, fun {k l k' l'} hkl hkl' => ?_, fun {k l} hkl => ?_⟩
  · simp [grow, h.sizes]
  · rcases hkl with hkl | ⟨rfl, rfl⟩ <;> rcases hkl' with hkl' | ⟨rfl, rfl⟩
    · exact h.unique hkl hkl'
    · have := h.lt_left hkl
      have := h.lt_right hkl
      omega
    · have := h.lt_left hkl'
      have := h.lt_right hkl'
      omega
    · exact iff_of_true rfl rfl
  · simp only [Scopes.getElem?_push, h.sizes.1, h.sizes.2]
    rcases hkl with hkl | ⟨rfl, rfl⟩
    · obtain ⟨f, g, hf, hg, hfg⟩ := h.frame hkl
      refine ⟨f, g, ?_, ?_, hfg.imp fun _ => .inl⟩
      · rw [if_neg (Nat.ne_of_lt (h.lt_left hkl)), hf]
      · rw [if_neg (Nat.ne_of_lt (h.lt_right hkl)), hg]
    · refine ⟨⟨bs, some i⟩, ⟨cs, some j⟩, if_pos rfl, if_pos rfl, ?_, fun name => ?_⟩
      · exact .some ⟨⟨h.lt_left hij, h.lt_right hij⟩, .inl hij⟩
      · exact (hb.mono fun hkl => ⟨Nat.le_of_lt (h.lt_left hkl), .inl hkl⟩).find? name

/-- Dropping the scope on both sides again. What is left does not refer to it. -/
theorem dropFrom {s₁ t₁ : State} (h : w.Holds s t) (hij : w.same i j) (h₁ : w.grow.Holds s₁ t₁) :
    w.Holds { s₁ with scopes := s₁.scopes.dropFrom w.sizes.1 }
      { t₁ with scopes := t₁.scopes.dropFrom w.sizes.2 } := by
  have hsizes : s₁.scopes.size = w.sizes.1 + 1 ∧ t₁.scopes.size = w.sizes.2 + 1 := h₁.sizes
  have hleft := h.lt_left hij
  have hright := h.lt_right hij
  refine ⟨?_, h₁.output, h.unique, fun {k l} hkl => ?_⟩
  · simp only [Scopes.size_dropFrom]
    omega
  · obtain ⟨f, g, hf, hg, hfg⟩ := h₁.frame (.inl hkl)
    refine ⟨f, g, ?_, ?_, hfg.imp fun hle hsame => ?_⟩
    · rw [Scopes.getElem?_dropFrom, if_pos, hf]
      exact Nat.lt_of_lt_of_le (h.lt_left hkl) (Nat.le_max_left _ _)
    · rw [Scopes.getElem?_dropFrom, if_pos, hg]
      exact Nat.lt_of_lt_of_le (h.lt_right hkl) (Nat.le_max_left _ _)
    · rcases hsame with hsame | ⟨rfl, -⟩
      · exact hsame
      · exact absurd (h.lt_left hkl) (Nat.not_lt.mpr hle)

end Pairing.Holds

/-! ### The simulation -/

/-- **Evaluation depends on paired scopes only.** The world is the pairing. -/
def pairing : Simulation Eval Eval where
  World := Pairing
  Same w := w.same
  Rel w _ R x y := ∀ s t, w.Holds s t → Result.Related w.Holds R (x s) (y t)
  pure ha s t h := .ok ha h
  bind hx hf s t h := (hx s t h).bind fun a b s₁ t₁ hab h₁ => hf a b hab s₁ t₁ h₁
  fail he s t h := .error he h
  lookup hij name s t h := Eval.related_lookup h (h.lookup hij name)
  bindName hij name b c hb s t h := Eval.related_bindName (h.insert hij name hb)
  emit {w} text s t h := by
    obtain ⟨texts, hs, ht⟩ := h.output
    refine .ok rfl ⟨h.sizes, ⟨texts ++ [text], ?_, ?_⟩, h.unique, h.frame⟩
    · simp [hs]
    · simp [ht]
  inNewScope {w i j} hij bs cs hb α R f g hf s t h := by
    have hinner := @hf w.grow _ _ (.inr h.sizes) _ _ (h.push hij hb)
    refine Eval.related_inNewScope hinner fun s₁ t₁ h₁ => ?_
    rw [h.sizes.1, h.sizes.2]
    exact h.dropFrom hij h₁

/-! ### Two arenas that agree on a closed set of scopes -/

/-- The scopes of `R` are alive in both arenas and bind the same names to the same things in both;
and they refer to one another only, be it as outer scopes or as the scopes of closures. -/
structure Scopes.AgreeOn (R : Set Scope.Index) (a a' : Scopes) : Prop where
  /-- The scopes of `R` agree. -/
  frame : ∀ i ∈ R, ∃ f g, a.frames[i]? = some f ∧ a'.frames[i]? = some g ∧ f.outer = g.outer ∧
    ∀ name, f.bindings.find? name = g.bindings.find? name
  /-- The scope around a scope of `R` is in `R`. -/
  outer : ∀ i ∈ R, ∀ f o, a.frames[i]? = some f → f.outer = some o → o ∈ R
  /-- The closures bound in a scope of `R` have captured scopes of `R`. -/
  captured : ∀ i ∈ R, ∀ f name c, a.frames[i]? = some f →
    f.bindings.find? name = some (.block c) → c.scope ∈ R

/-- Every scope of `R` is paired with itself. -/
def Pairing.on (R : Set Scope.Index) (s t : State) : Pairing where
  same i j := i = j ∧ i ∈ R
  sizes := (s.scopes.size, t.scopes.size)
  outputs := (s.output.toList, t.output.toList)

theorem Pairing.holds_of_agreeOn {R : Set Scope.Index} {s t : State}
    (hwf : s.scopes.WellFormed) (h : Scopes.AgreeOn R s.scopes t.scopes) :
    (Pairing.on R s t).Holds s t := by
  refine ⟨⟨rfl, rfl⟩, ⟨[], by simp [on], by simp [on]⟩, ?_, ?_⟩
  · rintro i _ j _ ⟨rfl, -⟩ ⟨rfl, -⟩
    exact Iff.rfl
  · rintro i _ ⟨rfl, hi⟩
    obtain ⟨f, g, hf, hg, houter, hbindings⟩ := h.frame i hi
    refine ⟨f, g, hf, hg, ?_, fun name => ?_⟩
    · rw [← houter]
      cases ho : f.outer with
      | none => exact .none
      | some o =>
        have hlt := hwf.lt_of_outer_eq hf ho
        exact .some ⟨⟨hlt, hlt⟩, rfl, h.outer i hi f o hf ho⟩
    · rw [← hbindings]
      cases hb : f.bindings.find? name with
      | none => exact .none
      | some b =>
        refine .some (Binding.related_self ?_)
        rintro c rfl
        obtain ⟨hle, harity⟩ := hwf.captured_le i f hf name c hb
        exact ⟨harity, hle, rfl, h.captured i hi f name c hf hb⟩

/-- The comparison may begin anew at any time. -/
theorem Pairing.Holds.restart {R : Set Scope.Index} {s t s' t' : State}
    (h : (Pairing.on R s t).Holds s' t') : (Pairing.on R s' t').Holds s' t' :=
  ⟨⟨rfl, rfl⟩, ⟨[], by simp [on], by simp [on]⟩, h.unique, h.frame⟩

/-- **Lexical scope.** If two arenas agree on a set of scopes that refer to one another only, an
expression that is evaluated in one of these scopes has the same value or error in both, and prints
the same. Whatever else is alive, as the scopes of the callers, does not matter.

The two evaluations have the same limit and the same number of levels left. What had been printed
before may differ, and of the two arenas only one need be well-formed. -/
theorem Expr.evalWithin_eq_of_agreeOn {s t : State} (hwf : s.scopes.WellFormed)
    {R : Set Scope.Index} (h : Scopes.AgreeOn R s.scopes t.scopes) {i : Scope.Index} (hi : i ∈ R)
    (limit depth : Nat) (e : Expr) :
    Result.outcome (Expr.evalWithin (m := Eval) limit depth i e s) =
        Result.outcome (Expr.evalWithin (m := Eval) limit depth i e t) ∧
      ∃ texts : List String,
        (Result.state (Expr.evalWithin (m := Eval) limit depth i e s)).output.toList =
            s.output.toList ++ texts ∧
          (Result.state (Expr.evalWithin (m := Eval) limit depth i e t)).output.toList =
            t.output.toList ++ texts := by
  have hholds := Pairing.holds_of_agreeOn hwf h
  have hrel := pairing.evalWithin limit depth (w := Pairing.on R s t) ⟨rfl, hi⟩ e s t hholds
  exact ⟨hrel.outcome, hrel.state.output⟩

namespace Scopes.AgreeOn

variable {R : Set Scope.Index} {a a' : Scopes}

theorem symm (h : AgreeOn R a a') : AgreeOn R a' a := by
  refine ⟨fun i hi => ?_, fun i hi g o hg ho => ?_, fun i hi g name c hg hc => ?_⟩
  · obtain ⟨f, g, hf, hg, houter, hbindings⟩ := h.frame i hi
    exact ⟨g, f, hg, hf, houter.symm, fun name => (hbindings name).symm⟩
  · obtain ⟨f, g', hf, hg', houter, -⟩ := h.frame i hi
    obtain rfl : g = g' := Option.some.inj (hg.symm.trans hg')
    exact h.outer i hi f o hf (houter.trans ho)
  · obtain ⟨f, g', hf, hg', -, hbindings⟩ := h.frame i hi
    obtain rfl : g = g' := Option.some.inj (hg.symm.trans hg')
    exact h.captured i hi f name c hf ((hbindings name).trans hc)

/-- A scope that is opened later does not matter. -/
theorem push (h : AgreeOn R a a') (outer : Scope.Index) (bindings : Bindings) :
    AgreeOn R (a.push outer bindings).2 a' := by
  have hold : ∀ i ∈ R, (a.push outer bindings).2.frames[i]? = a.frames[i]? := by
    intro i hi
    obtain ⟨f, g, hf, -, -⟩ := h.frame i hi
    rw [getElem?_push, if_neg (Nat.ne_of_lt (lt_size hf))]
  refine ⟨fun i hi => ?_, fun i hi f o hf ho => ?_, fun i hi f name c hf hc => ?_⟩
  · rw [hold i hi]
    exact h.frame i hi
  · exact h.outer i hi f o (hold i hi ▸ hf) ho
  · exact h.captured i hi f name c (hold i hi ▸ hf) hc

/-- The root of an evaluator at rest refers to itself only. -/
theorem of_atRest {s : State} (hs : s.AtRest) : AgreeOn {.root} s.scopes s.scopes := by
  refine ⟨?_, ?_, ?_⟩
  · rintro i rfl
    obtain ⟨f, hf⟩ := getElem?_eq_some_iff_lt.mpr hs.wellFormed.size_pos
    exact ⟨f, f, hf, hf, rfl, fun _ => rfl⟩
  · rintro i rfl f o hf ho
    have hnone := hs.wellFormed.outer_root f hf
    exact absurd (ho.symm.trans hnone) (by simp)
  · rintro i rfl f name c hf hc
    exact Nat.le_zero.mp (hs.wellFormed.captured_le _ f hf name c hc).1

end Scopes.AgreeOn

/-- A root that binds `n` to 1 and `g` to a block that adds `n`. -/
def State.adder : State :=
  (Program.freshRuns [(9, [.assign "n" ⟨[], [], .int 1⟩,
    .assign "g" ⟨["x"], [], .binary .add (.ref "x" []) (.ref "n" [])⟩])]).2

/-- The same root, with a caller for which `n` is a text. -/
def State.adderCalled : State :=
  { State.adder with
    scopes := (State.adder.scopes.push .root ⟨[("n", .value (.str "far"))]⟩).2 }

/-- The same root, with two callers for which `n` is another number. -/
def State.adderCalledTwice : State where
  scopes := ((State.adder.scopes.push .root ⟨[("n", .value (.int 100))]⟩).2.push 1
    ⟨[("n", .value (.int 200))]⟩).2
  output := #["called"]

/-- The block adds the `n` of the root whoever its callers are. -/
theorem Expr.evalWithin_adder_eq :
    State.adderCalledTwice.scopes.WellFormed ∧
      Scopes.AgreeOn {.root} State.adderCalledTwice.scopes State.adderCalled.scopes ∧
      Result.outcome (Expr.evalWithin (m := Eval) 3 3 .root (.ref "g" [.int 10])
        State.adderCalled) = .ok (.int 11) ∧
      Result.outcome (Expr.evalWithin (m := Eval) 3 3 .root (.ref "g" [.int 10])
          State.adderCalledTwice) =
        Result.outcome (Expr.evalWithin (m := Eval) 3 3 .root (.ref "g" [.int 10])
          State.adderCalled) := by
  have hrest : State.adder.AtRest := Program.freshRuns_atRest _
  have hvalue : ∀ (v : Value) (name : String) (c : Closure),
      (⟨[("n", .value v)]⟩ : Bindings).find? name ≠ some (.block c) := by
    intro v name c
    rw [Bindings.find?, List.lookup_cons]
    split <;> simp
  have hwf : State.adderCalledTwice.scopes.WellFormed := by
    refine (hrest.wellFormed.push hrest.wellFormed.size_pos ?_).push (by simp [hrest.size]) ?_
    · exact fun name c hc => absurd hc (hvalue _ name c)
    · exact fun name c hc => absurd hc (hvalue _ name c)
  have hagree : Scopes.AgreeOn {.root} State.adderCalledTwice.scopes State.adderCalled.scopes :=
    ((((Scopes.AgreeOn.of_atRest hrest).push _ _).push _ _).symm.push _ _).symm
  exact ⟨hwf, hagree, rfl, (evalWithin_eq_of_agreeOn hwf hagree rfl 3 3 _).1⟩

end Blockscript
