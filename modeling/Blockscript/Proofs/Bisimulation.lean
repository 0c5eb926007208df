import Blockscript.Proofs.Effects

/-!
# Scopes that cannot be told apart

All that an expression learns of the scopes around it, it learns by looking names up. So two scopes,
of the same or of different arenas, cannot be told apart if every name stands for the same thing in
both, where closures are the same if they have the same block over scopes that cannot be told apart
either. This module shows that evaluation in such scopes has the same value or error and prints the
same.

Nothing is asked of the way in which a binding is found. The scopes that are compared may lie at
different depths, and one of two chains may contain scopes that bind nothing. That is how a block
without parameters can do without a scope of its own when it has no body, which is the first use
made of the result here.

## The shape of the argument

Scopes that cannot be told apart cease to be so when a name is bound in one of them. The evaluation
of an expression binds names only in scopes that it has opened itself. Such a scope is the youngest
on its side, and it is compared with one scope only; so to bind a name there, on both sides, does
not affect any other comparison. In a world whose scopes are not of that kind, nothing is said of
statements.

## Main definitions

* `Scopes.Bisimilar` : a relation between scopes that cannot be told apart.
* `Outlook`, `Outlook.Holds`, `Outlook.Fresh` : what is compared, where, and whether names may be
  bound there.
* `Block.bindInScopeWith` : a block without parameters in a scope of its own.

## Main results

* `Scopes.Bisimilar.push`, `Scopes.Bisimilar.shadows` : what the operations keep.
* `bisimulation` : evaluations in scopes that cannot be told apart do the same.
* `Expr.evalWithin_of_bisimilar`, `Block.inNewScope_of_bisimilar` : expressions and calls.
* `Block.bindWith_eq_bindInScopeWith` : a block without parameters may as well run in a scope of its
  own.
-/

namespace Blockscript

/-! ### Relations between scopes -/

/-- Scopes that `same` relates cannot be told apart by looking names up. -/
structure Scopes.Bisimilar (same : Scope.Index → Scope.Index → Prop) (a a' : Scopes) : Prop where
  /-- Related scopes are alive. -/
  live : ∀ {i j : Nat}, same i j → i < a.size ∧ j < a'.size
  /-- In related scopes a name stands for the same thing, or is unbound in both. -/
  lookup : ∀ {i j : Nat}, same i j → ∀ name, ∃ b c, a.lookup i name = .ok b ∧
    a'.lookup j name = .ok c ∧ Option.Rel (Binding.Related same) b c

/-- What a name stands for in a live scope is the same as itself, by any relation under which live
scopes are. -/
theorem Scopes.WellFormed.exists_lookup_related {a : Scopes} (h : a.WellFormed)
    {same : Scope.Index → Scope.Index → Prop} (hsame : ∀ k < a.size, same k k) {i : Scope.Index}
    (hi : i < a.size) (name : String) :
    ∃ b, a.lookup i name = .ok b ∧ Option.Rel (Binding.Related same) b b := by
  obtain ⟨path, -, hpath⟩ := h.lookup_eq_nearest hi
  obtain ⟨hlookup, hclosure⟩ := hpath name
  refine ⟨_, hlookup, ?_⟩
  cases hb : a.nearest name path with
  | none => exact .none
  | some b =>
    refine .some (Binding.related_self fun c hc => ?_)
    obtain ⟨hscope, harity⟩ := hclosure c (hc ▸ hb)
    exact ⟨harity, hsame _ (Nat.lt_of_le_of_lt hscope hi)⟩

/-- What is bound in the scopes `i` and `j` is closed over them, on either side. -/
theorem Binding.Related.closed_over {i j : Scope.Index} {b c : Binding}
    (h : Binding.Related (fun k l => k = i ∧ l = j) b c) :
    Binding.Related (fun k l => k = i ∧ l = i) b b ∧
      Binding.Related (fun k l => k = j ∧ l = j) c c := by
  cases h with
  | value v => exact ⟨.value v, .value v⟩
  | block harity hscope =>
    obtain ⟨rfl, rfl⟩ := hscope
    exact ⟨.block harity ⟨rfl, rfl⟩, .block harity ⟨rfl, rfl⟩⟩

/-- Closures in related bindings are over related scopes, and expect arguments. -/
theorem Bindings.Related.captured {same : Scope.Index → Scope.Index → Prop} {bs cs : Bindings}
    (h : bs.Related same cs) (name : String) :
    (∀ c, bs.find? name = some (.block c) → 1 ≤ c.arity ∧ ∃ j, same c.scope j) ∧
      ∀ c, cs.find? name = some (.block c) → 1 ≤ c.arity ∧ ∃ i, same i c.scope := by
  have hname := h.find? name
  generalize bs.find? name = b, cs.find? name = b' at hname ⊢
  cases hname with
  | none => simp
  | some hrelated =>
    cases hrelated with
    | value v => simp
    | block harity hscope =>
      constructor
      · rintro c hc
        cases hc
        exact ⟨harity, _, hscope⟩
      · rintro c hc
        cases hc
        exact ⟨harity, _, hscope⟩

namespace Scopes.Bisimilar

variable {same : Scope.Index → Scope.Index → Prop} {a a' : Scopes} {i j : Scope.Index}

/-- Opening a scope on both sides, in related scopes and with related bindings, keeps both arenas
well-formed. -/
theorem wellFormed_push (h : Bisimilar same a a') (hwf : a.WellFormed) (hwf' : a'.WellFormed)
    (hij : same i j) {bs cs : Bindings} (hb : bs.Related same cs) :
    (a.push i bs).2.WellFormed ∧ (a'.push j cs).2.WellFormed := by
  constructor
  · refine hwf.push (h.live hij).1 fun name c hc => ?_
    obtain ⟨harity, l, hl⟩ := (hb.captured name).1 c hc
    exact ⟨(h.live hl).1, harity⟩
  · refine hwf'.push (h.live hij).2 fun name c hc => ?_
    obtain ⟨harity, k, hk⟩ := (hb.captured name).2 c hc
    exact ⟨(h.live hk).2, harity⟩

/-- Then the new scopes cannot be told apart either. -/
theorem push (h : Bisimilar same a a') (hwf : a.WellFormed) (hwf' : a'.WellFormed)
    (hij : same i j) {bs cs : Bindings} (hb : bs.Related same cs) :
    Bisimilar (fun k l => same k l ∨ k = a.size ∧ l = a'.size) (a.push i bs).2
      (a'.push j cs).2 := by
  refine ⟨?_, ?_⟩
  · rintro k l (hkl | ⟨rfl, rfl⟩)
    · obtain ⟨hk, hl⟩ := h.live hkl
      simp only [size_push]
      omega
    · simp
  · rintro k l (hkl | ⟨rfl, rfl⟩) name
    · obtain ⟨b, c, hlookup, hlookup', hbc⟩ := h.lookup hkl name
      rw [hwf.lookup_push (h.live hkl).1, hwf'.lookup_push (h.live hkl).2]
      exact ⟨b, c, hlookup, hlookup', optionRel_imp hbc fun hrelated => hrelated.mono .inl⟩
    · rw [hwf.lookup_push_self (h.live hij).1, hwf'.lookup_push_self (h.live hij).2]
      have hname := hb.find? name
      generalize bs.find? name = b, cs.find? name = c at hname ⊢
      cases hname with
      | some hrelated => exact ⟨_, _, rfl, rfl, .some (hrelated.mono .inl)⟩
      | none =>
        obtain ⟨b, c, hlookup, hlookup', hbc⟩ := h.lookup hij name
        exact ⟨b, c, hlookup, hlookup', optionRel_imp hbc fun hrelated => hrelated.mono .inl⟩

/-- Binding a name on both sides, in the youngest scopes, which are related to each other only. -/
theorem shadows {d d' : Scopes} (h : Bisimilar same a a') (hij : same i j) (hi : i + 1 = a.size)
    (hj : j + 1 = a'.size) (hunique : ∀ {k l : Nat}, same k l → (k = i ↔ l = j)) {name : String}
    {b c : Binding} (hb : Binding.Related (fun k l => k = i ∧ l = j) b c)
    (hd : a.Shadows d i name b) (hd' : a'.Shadows d' j name c) : Bisimilar same d d' := by
  refine ⟨?_, ?_⟩
  · intro k l hkl
    rw [hd.size, hd'.size]
    exact h.live hkl
  · intro k l hkl other
    have hpair := hunique hkl
    by_cases hk : k = i
    · obtain rfl : l = j := hpair.mp hk
      subst hk
      rw [hd.lookup_here, hd'.lookup_here]
      by_cases hother : other = name
      · rw [if_pos hother, if_pos hother]
        refine ⟨_, _, rfl, rfl, .some (hb.mono fun hkl => ?_)⟩
        rw [hkl.1, hkl.2]
        exact hij
      · rw [if_neg hother, if_neg hother]
        exact h.lookup hkl other
    · have hl : l ≠ j := fun hl => hk (hpair.mpr hl)
      obtain ⟨hklive, hllive⟩ := h.live hkl
      rw [← hi] at hklive
      rw [← hj] at hllive
      rw [hd.lookup_older k (Nat.lt_of_le_of_ne (Nat.le_of_lt_succ hklive) hk),
        hd'.lookup_older l (Nat.lt_of_le_of_ne (Nat.le_of_lt_succ hllive) hl)]
      exact h.lookup hkl other

end Scopes.Bisimilar

/-! ### The simulation -/

/-- How two states are compared, and where evaluation takes place in them. -/
structure Outlook where
  /-- The scope on the right cannot be told apart from the scope on the left. -/
  same : Scope.Index → Scope.Index → Prop
  /-- The scopes in which evaluation takes place. -/
  here : Scope.Index × Scope.Index

namespace Outlook

/-- The arenas are well-formed, and related scopes cannot be told apart. -/
structure Holds (w : Outlook) (s t : State) : Prop where
  /-- The arena on the left is well-formed. -/
  left : s.scopes.WellFormed
  /-- The arena on the right is well-formed. -/
  right : t.scopes.WellFormed
  /-- Related scopes cannot be told apart. -/
  bisimilar : Scopes.Bisimilar w.same s.scopes t.scopes

/-- Evaluation takes place in the youngest scopes, which are related to each other only. -/
structure Fresh (w : Outlook) (s t : State) : Prop where
  /-- The scope on the left is the youngest. -/
  left : w.here.1 + 1 = s.scopes.size
  /-- The scope on the right is the youngest. -/
  right : w.here.2 + 1 = t.scopes.size
  /-- Neither is related to another scope. -/
  unique : ∀ {k l : Nat}, w.same k l → (k = w.here.1 ↔ l = w.here.2)

/-- Names may have been bound where evaluation takes place, and the same texts have been printed, on
both sides. -/
structure Extended (w : Outlook) (s t s' t' : State) : Prop where
  /-- Related scopes still cannot be told apart. -/
  holds : w.Holds s' t'
  /-- On the left, nothing else has happened. -/
  left : s.Extended w.here.1 s'
  /-- On the right, nothing else has happened. -/
  right : t.Extended w.here.2 t'
  /-- The same has been printed. -/
  output : ∃ texts, s'.output = s.output ++ texts ∧ t'.output = t.output ++ texts

end Outlook

/-- The same texts have been printed on both sides, and nothing else has happened. -/
def State.Alike (s t s' t' : State) : Prop :=
  ∃ texts, s' = s.printing texts ∧ t' = t.printing texts

namespace State

variable {s t s₁ t₁ s₂ t₂ : State}

theorem Alike.refl (s t : State) : Alike s t s t :=
  ⟨#[], by simp [printing], by simp [printing]⟩

theorem Alike.trans (h₁ : Alike s t s₁ t₁) (h₂ : Alike s₁ t₁ s₂ t₂) : Alike s t s₂ t₂ := by
  obtain ⟨texts, rfl, rfl⟩ := h₁
  obtain ⟨texts', rfl, rfl⟩ := h₂
  exact ⟨texts ++ texts', printing_printing .., printing_printing ..⟩

/-- When the scope of a call is dropped, only what it has printed is left. -/
theorem Extended.dropFrom_eq {outer : Scope.Index} {bindings : Bindings} {texts : Array String}
    (hpos : 0 < s.scopes.size)
    (h : Extended s.scopes.size { s with scopes := (s.scopes.push outer bindings).2 } s₁)
    (houtput : s₁.output = s.output ++ texts) :
    { s₁ with scopes := s₁.scopes.dropFrom s.scopes.size } = s.printing texts := by
  have hscopes : s₁.scopes.dropFrom s.scopes.size = s.scopes := (h.dropFrom hpos).scopes
  rw [printing, ← houtput, hscopes]

end State

namespace Outlook

variable {w : Outlook} {s t s₁ t₁ s₂ t₂ : State}

theorem Fresh.of_extended (h : w.Fresh s t) (h₁ : w.Extended s t s₁ t₁) : w.Fresh s₁ t₁ :=
  ⟨h.left.trans h₁.left.size.symm, h.right.trans h₁.right.size.symm, h.unique⟩

theorem Holds.extended (h : w.Holds s t) (h₁ : State.Alike s t s₁ t₁) :
    w.Extended s t s₁ t₁ := by
  obtain ⟨texts, rfl, rfl⟩ := h₁
  have hprinted : ∀ s : State, s.Printed (s.printing texts) := fun s => ⟨rfl, by simp⟩
  exact ⟨⟨h.left, h.right, h.bisimilar⟩, (hprinted s).extended h.left _,
    (hprinted t).extended h.right _, texts, rfl, rfl⟩

theorem Extended.trans (h₁ : w.Extended s t s₁ t₁) (h₂ : w.Extended s₁ t₁ s₂ t₂) :
    w.Extended s t s₂ t₂ := by
  obtain ⟨texts, hs, ht⟩ := h₁.output
  obtain ⟨texts', hs', ht'⟩ := h₂.output
  refine ⟨h₂.holds, h₁.left.trans h₂.left, h₁.right.trans h₂.right, texts ++ texts', ?_, ?_⟩
  · rw [hs', hs, Array.append_assoc]
  · rw [ht', ht, Array.append_assoc]

/-- The outlook in two scopes that are opened in `s` and `t`. -/
def enter (w : Outlook) (s t : State) : Outlook where
  same k l := w.same k l ∨ k = s.scopes.size ∧ l = t.scopes.size
  here := (s.scopes.size, t.scopes.size)

/-- Opening a scope on both sides, in related scopes and with related bindings. -/
theorem Holds.enter (h : w.Holds s t) {i j : Scope.Index} (hij : w.same i j) {bs cs : Bindings}
    (hb : bs.Related w.same cs) :
    (w.enter s t).Holds { s with scopes := (s.scopes.push i bs).2 }
      { t with scopes := (t.scopes.push j cs).2 } := by
  obtain ⟨hleft, hright⟩ := h.bisimilar.wellFormed_push h.left h.right hij hb
  exact ⟨hleft, hright, h.bisimilar.push h.left h.right hij hb⟩

/-- No scope that was there is related to one of the new ones. -/
theorem Holds.fresh_enter (h : w.Holds s t) (i j : Scope.Index) (bs cs : Bindings) :
    (w.enter s t).Fresh { s with scopes := (s.scopes.push i bs).2 }
      { t with scopes := (t.scopes.push j cs).2 } := by
  refine ⟨(Scopes.size_push ..).symm, (Scopes.size_push ..).symm, ?_⟩
  rintro k l (hkl | ⟨rfl, rfl⟩)
  · obtain ⟨hk, hl⟩ := h.bisimilar.live hkl
    exact iff_of_false (Nat.ne_of_lt hk) (Nat.ne_of_lt hl)
  · exact iff_of_true rfl rfl

/-- Dropping the scopes on both sides again. -/
theorem Holds.leave (h : w.Holds s t) {i j : Scope.Index} {bs cs : Bindings}
    (h₁ : (w.enter s t).Extended { s with scopes := (s.scopes.push i bs).2 }
      { t with scopes := (t.scopes.push j cs).2 } s₁ t₁) :
    State.Alike s t { s₁ with scopes := s₁.scopes.dropFrom s.scopes.size }
      { t₁ with scopes := t₁.scopes.dropFrom t.scopes.size } := by
  obtain ⟨texts, hs, ht⟩ := h₁.output
  exact ⟨texts, h₁.left.dropFrom_eq h.left.size_pos hs, h₁.right.dropFrom_eq h.right.size_pos ht⟩

/-- Binding a name on both sides, where evaluation takes place. -/
theorem Holds.bindName (h : w.Holds s t) (hfresh : w.Fresh s t) (hhere : w.same w.here.1 w.here.2)
    (name : String) {b c : Binding}
    (hb : Binding.Related (fun k l => k = w.here.1 ∧ l = w.here.2) b c) :
    ∃ s₁ t₁, Eval.bindName w.here.1 name b s = .ok () s₁ ∧
      Eval.bindName w.here.2 name c t = .ok () t₁ ∧ w.Extended s t s₁ t₁ := by
  obtain ⟨hi, hj⟩ := h.bisimilar.live hhere
  obtain ⟨hleft, hright⟩ := hb.closed_over
  obtain ⟨a, hs, hextended, hshadows⟩ := Eval.bindName_shadows h.left hi name hleft
  obtain ⟨a', ht, hextended', hshadows'⟩ := Eval.bindName_shadows h.right hj name hright
  refine ⟨_, _, hs, ht, ?_, hextended, hextended', #[], by simp, by simp⟩
  refine ⟨hextended.wellFormed, hextended'.wellFormed, ?_⟩
  exact h.bisimilar.shadows hhere hfresh.left hfresh.right hfresh.unique hb hshadows hshadows'

end Outlook

/-- **Scopes that cannot be told apart.** The world is the outlook. -/
def bisimulation : LocalSimulation Eval Eval where
  World := Outlook
  Same w := w.same
  Here w i j := w.same i j ∧ i = w.here.1 ∧ j = w.here.2
  same_of_here h := h.1
  Still w _ R x y := ∀ s t, w.Holds s t → Result.Related (State.Alike s t) R (x s) (y t)
  Rel w _ R x y := ∀ s t, w.Holds s t → w.Fresh s t →
    Result.Related (w.Extended s t) R (x s) (y t)
  rel_of_still hxy s t h _ := (hxy s t h).imp fun s₁ t₁ h₁ => h.extended h₁
  pure ha s t h := .ok ha (.refl s t)
  still_bind hx hf s t h := by
    refine (hx s t h).bind fun a b s₁ t₁ hab h₁ => ?_
    have hnext := hf a b hab s₁ t₁ (h.extended h₁).holds
    exact hnext.imp fun s₂ t₂ h₂ => h₁.trans h₂
  bind hx hf s t h hfresh := by
    refine (hx s t h hfresh).bind fun a b s₁ t₁ hab h₁ => ?_
    have hnext := hf a b hab s₁ t₁ h₁.holds (hfresh.of_extended h₁)
    exact hnext.imp fun s₂ t₂ h₂ => h₁.trans h₂
  mismatch e s t h := .error (by simp) (.refl s t)
  arity name expected got s t h := .error (by simp) (.refl s t)
  lookup hij name s t h := Eval.related_lookup (.refl s t) (h.bisimilar.lookup hij name)
  bindName {w i j} hij name b c hb s t h hfresh := by
    obtain ⟨hsame, rfl, rfl⟩ := hij
    obtain ⟨s₁, t₁, hs₁, ht₁, h₁⟩ := h.bindName hfresh hsame name hb
    show Result.Related _ _ (Eval.bindName w.here.1 name b s) (Eval.bindName w.here.2 name c t)
    rw [hs₁, ht₁]
    exact .ok rfl h₁
  emit text s t h := .ok rfl ⟨#[text], by simp [State.printing], by simp [State.printing]⟩
  inNewScope {w i j} hij bs cs hb α R f g hf s t h := by
    have hinner := @hf (w.enter s t) _ _ ⟨.inr ⟨rfl, rfl⟩, rfl, rfl⟩ _ _ (h.enter hij hb)
      (h.fresh_enter i j bs cs)
    exact Eval.related_inNewScope hinner fun s₁ t₁ h₁ => h.leave h₁

/-! ### Expressions and calls -/

theorem bisimulation_evalWithin (limit depth : Nat) :
    bisimulation.Evals (Expr.evalWithin limit depth) (Expr.evalWithin limit depth) :=
  LocalSimulation.evalWithin (fun s t _ => .error (by simp) (.refl s t)) depth

section

variable {same : Scope.Index → Scope.Index → Prop} {s t : State} {i j : Scope.Index}

/-- **Evaluation in scopes that cannot be told apart** has the same value or error, prints the same,
and leaves both arenas as they were. -/
theorem Expr.evalWithin_of_bisimilar (hs : s.scopes.WellFormed) (ht : t.scopes.WellFormed)
    (h : Scopes.Bisimilar same s.scopes t.scopes) (hij : same i j) (limit depth : Nat) (e : Expr) :
    Result.Related (State.Alike s t) Eq (Expr.evalWithin (m := Eval) limit depth i e s)
      (Expr.evalWithin (m := Eval) limit depth j e t) :=
  bisimulation_evalWithin limit depth (w := ⟨same, (i, j)⟩) ⟨hij, rfl, rfl⟩ e s t ⟨hs, ht, h⟩

/-- The same holds of a block that runs in a new scope inside such scopes. -/
theorem Block.inNewScope_of_bisimilar (hs : s.scopes.WellFormed) (ht : t.scopes.WellFormed)
    (h : Scopes.Bisimilar same s.scopes t.scopes) (hij : same i j) {bs cs : Bindings}
    (hb : bs.Related same cs) (limit depth : Nat) (block : Block) :
    Result.Related (State.Alike s t) Eq
      (Eval.inNewScope i bs
        (fun inner => Block.runWith (Expr.evalWithin limit depth) inner block) s)
      (Eval.inNewScope j cs
        (fun inner => Block.runWith (Expr.evalWithin limit depth) inner block) t) :=
  bisimulation.inNewScope (w := ⟨same, (i, j)⟩) hij hb
    (fun hinner => LocalSimulation.runWith (bisimulation_evalWithin limit depth) hinner block)
    s t ⟨hs, ht, h⟩

end

/-! ### A scope more -/

namespace Scopes

variable {a : Scopes} {i : Scope.Index}

/-- An empty scope cannot be told apart from the scope in which it lies. -/
theorem WellFormed.bisimilar_push_empty (h : a.WellFormed) (hi : i < a.size) :
    Bisimilar (fun k l => k = l ∧ k < a.size ∨ k = i ∧ l = a.size) a (a.push i .empty).2 := by
  have hfound : ∀ k < a.size, ∀ name, ∃ b, a.lookup k name = .ok b ∧ Option.Rel
      (Binding.Related fun k l => k = l ∧ k < a.size ∨ k = i ∧ l = a.size) b b :=
    fun k hk name => h.exists_lookup_related (fun k hk => .inl ⟨rfl, hk⟩) hk name
  refine ⟨?_, ?_⟩
  · rintro k l (⟨rfl, hk⟩ | ⟨rfl, rfl⟩)
    · exact ⟨hk, by simpa using Nat.lt_succ_of_lt hk⟩
    · exact ⟨hi, by simp⟩
  · rintro k l (⟨rfl, hk⟩ | ⟨rfl, rfl⟩) name
    · obtain ⟨b, hb, hrelated⟩ := hfound k hk name
      exact ⟨b, b, hb, (h.lookup_push hk ..).trans hb, hrelated⟩
    · obtain ⟨b, hb, hrelated⟩ := hfound k hi name
      exact ⟨b, b, hb, (h.lookup_push_self hi .empty name).trans hb, hrelated⟩

/-- A new scope does not make a difference to the others. -/
theorem WellFormed.bisimilar_push (h : a.WellFormed) (outer : Scope.Index) (bindings : Bindings) :
    Bisimilar (Scope.Live a.size) a (a.push outer bindings).2 := by
  refine ⟨?_, ?_⟩
  · rintro k _ ⟨rfl, hk⟩
    exact ⟨hk, by simpa using Nat.lt_succ_of_lt hk⟩
  · rintro k _ ⟨rfl, hk⟩ name
    obtain ⟨b, hb, hrelated⟩ := @exists_lookup_related a h (Scope.Live a.size)
      (fun k hk => ⟨rfl, hk⟩) k hk name
    exact ⟨b, b, hb, (h.lookup_push hk ..).trans hb, hrelated⟩

/-- Dropping a scope that has just been opened. -/
theorem dropFrom_push (hpos : 0 < a.size) (outer : Scope.Index) (bindings : Bindings) :
    (a.push outer bindings).2.dropFrom a.size = a := by
  refine eq_of_getElem? fun k => ?_
  rw [getElem?_dropFrom, getElem?_push]
  by_cases hk : k < a.size
  · have hmax : k < max a.size 1 := Nat.lt_of_lt_of_le hk (Nat.le_max_left _ _)
    rw [if_pos hmax, if_neg (Nat.ne_of_lt hk)]
  · have hmax : ¬k < max a.size 1 := by omega
    rw [if_neg hmax, Array.getElem?_eq_none (Nat.le_of_not_lt hk)]

end Scopes

namespace Eval

variable {α β : Type}

theorem bind_congr {x y : Eval α} {s : State} (h : x s = y s) (f : α → Eval β) :
    (x >>= f) s = (y >>= f) s := by
  simp only [Bind.bind, EStateM.bind, h]

/-- A computation that does the same in a new scope as without it may as well run there. -/
theorem inNewScope_eq_of_related {s : State} (hpos : 0 < s.scopes.size) {outer : Scope.Index}
    {bindings : Bindings} {f : Scope.Index → Eval α} {x : Eval α}
    (h : Result.Related (State.Alike s { s with scopes := (s.scopes.push outer bindings).2 }) Eq
      (x s) (f s.scopes.size { s with scopes := (s.scopes.push outer bindings).2 })) :
    inNewScope outer bindings f s = x s := by
  simp only [inNewScope, Scopes.push_fst]
  generalize x s = r, f _ _ = r' at h ⊢
  cases h with
  | ok hv halike =>
    obtain ⟨texts, rfl, rfl⟩ := halike
    simp only [hv, State.printing, Scopes.dropFrom_push hpos]
  | error _ halike =>
    obtain ⟨texts, rfl, rfl⟩ := halike
    simp only [State.printing, Scopes.dropFrom_push hpos]

end Eval

/-- An expression may as well be evaluated in an empty scope inside the one where it stands. -/
theorem Expr.inNewScope_evalWithin_eq {s : State} (hwf : s.scopes.WellFormed) {i : Scope.Index}
    (hi : i < s.scopes.size) (limit depth : Nat) (e : Expr) :
    Eval.inNewScope i .empty (fun inner => Expr.evalWithin limit depth inner e) s =
      Expr.evalWithin (m := Eval) limit depth i e s := by
  refine Eval.inNewScope_eq_of_related hwf.size_pos ?_
  exact Expr.evalWithin_of_bisimilar hwf (hwf.push hi (by simp)) (hwf.bisimilar_push_empty hi)
    (.inr ⟨rfl, rfl⟩) limit depth e

/-! ### Blocks without parameters -/

/-- What a block without parameters is bound to if it runs in a scope of its own, whether it has a
body or not. -/
def Block.bindInScopeWith {m : Type → Type} [MonadScopes m] (eval : ExprEval m)
    (scope : Scope.Index) (block : Block) : m Binding := do
  let v ← MonadScopes.inNewScope scope .empty fun inner => Block.runWith eval inner block
  return .value v

/-- **A block without parameters may as well run in a scope of its own.** In particular one without
a body, which does not get one: its tail, evaluated where the block stands, has the same value or
error and prints the same as in an empty scope that is opened there and then dropped, and the arena
is the same afterwards. -/
theorem Block.bindWith_eq_bindInScopeWith {s : State} (hwf : s.scopes.WellFormed)
    {i : Scope.Index} (hi : i < s.scopes.size) (limit depth : Nat) {block : Block}
    (hparams : block.params = []) :
    Block.bindWith (m := Eval) (Expr.evalWithin limit depth) i block s =
      Block.bindInScopeWith (m := Eval) (Expr.evalWithin limit depth) i block s := by
  obtain ⟨params, body, tail⟩ := block
  obtain rfl : params = [] := hparams
  cases body with
  | nil =>
    have hrun : ∀ inner, Block.runWith (m := Eval) (Expr.evalWithin limit depth) inner
        ⟨[], [], tail⟩ = Expr.evalWithin limit depth inner tail := by
      intro inner
      rw [Block.runWith, Stmt.execAllWith, pure_bind]
    have htail := Expr.inNewScope_evalWithin_eq hwf hi limit depth tail
    rw [Block.bindWith, Block.bindInScopeWith]
    simp only [hrun]
    exact Eval.bind_congr htail.symm _
  | cons stmt body =>
    rw [Block.bindInScopeWith]
    simp only [Block.bindWith, Block.runWith]

/-- A tail that calls a block of the root twice, once with a name that it looks up in the root. -/
theorem Block.bindWith_insideRoot_eq :
    State.insideRoot.scopes.WellFormed ∧ 1 < State.insideRoot.scopes.size ∧
      Result.outcome (Block.bindWith (m := Eval) (Expr.evalWithin 5 5) 1
        ⟨[], [], .binary .mul (.ref "f" [.ref "x" []]) (.ref "f" [.int 5])⟩
        State.insideRoot) = .ok (.value (.int 12)) ∧
      Block.bindWith (m := Eval) (Expr.evalWithin 5 5) 1
          ⟨[], [], .binary .mul (.ref "f" [.ref "x" []]) (.ref "f" [.int 5])⟩ State.insideRoot =
        Block.bindInScopeWith (m := Eval) (Expr.evalWithin 5 5) 1
          ⟨[], [], .binary .mul (.ref "f" [.ref "x" []]) (.ref "f" [.int 5])⟩
          State.insideRoot := by
  have hlive : 1 < State.insideRoot.scopes.size := by decide
  exact ⟨State.wellFormed_insideRoot, hlive, rfl,
    Block.bindWith_eq_bindInScopeWith State.wellFormed_insideRoot hlive 5 5 rfl⟩

end Blockscript
