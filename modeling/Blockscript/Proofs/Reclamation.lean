import Blockscript.Proofs.Arena
import Blockscript.Proofs.Simulation

/-!
# Dropping scopes is unobservable

The evaluator drops the scope of a call when the call ends, and the index is then used again for
another scope. `Kept` runs the same evaluator without ever dropping a scope, so that no index is
used twice. This module shows that programs cannot tell the two apart: results, output and what is
bound in the root are the same.

The two arenas are compared along a renaming, a list that gives for every live scope the index that
it has when nothing is dropped. A call makes the list longer by one, and its end makes it shorter
again. In between the dropped scopes stay in the other arena as garbage, which the list does not
mention. Nothing can refer to garbage, since a closure captures no scope younger than the one that
binds it.

## Main definitions

* `Kept` : computations on states that never drop a scope.
* `Scope.Renamed`, `State.Renamed` : scopes and states that agree up to a renaming of indices.

## Main results

* `State.Renamed.push`, `State.Renamed.restrict` : how a renaming grows and shrinks with a call.
* `reclaiming` : the evaluator that drops scopes simulates the one that keeps them.
* `Program.freshRuns_eq_keptRuns` : the headline, for every sequence of runs.
-/

namespace Blockscript

/-! ### Evaluation that drops nothing -/

/-- Computations on states in which a scope, once opened, is never dropped. -/
def Kept (α : Type) := EStateM EvalError State α

namespace Kept

instance : Monad Kept :=
  inferInstanceAs (Monad (EStateM EvalError State))

/-- Runs a computation in a new scope, which stays. -/
def inNewScope {α : Type} (outer : Scope.Index) (bindings : Bindings) (run : Scope.Index → Kept α) :
    Kept α := fun s =>
  let (id, scopes) := s.scopes.push outer bindings
  run id { s with scopes }

instance : MonadScopes Kept where
  lookup := Eval.lookup
  bindName := Eval.bindName
  emit := Eval.emit
  inNewScope := inNewScope
  fail := Eval.fail

end Kept

/-! ### Scopes and states up to a renaming -/

/-- The scopes `f`, of index `i`, and `g` bind the same names to the same things and lie in the same
scope, where `ρ` gives for each index on the left the one that stands for it on the right. What `f`
refers to is not younger than `f`. -/
structure Scope.Renamed (ρ : List Scope.Index) (i : Scope.Index) (f g : Scope) : Prop where
  /-- The outer scopes correspond. -/
  outer : Option.Rel (fun k l => k < i ∧ ρ[k]? = some l) f.outer g.outer
  /-- The bindings agree. -/
  bindings : f.bindings.Related (fun k l => k ≤ i ∧ ρ[k]? = some l) g.bindings

/-- The live scopes of `s`, renamed by `ρ`, are among those of `t`. Whatever else `t` holds is
unconstrained. -/
structure State.Renamed (ρ : List Scope.Index) (s t : State) : Prop where
  /-- The same texts have been printed. -/
  output : s.output = t.output
  /-- Every live scope is renamed. -/
  size : s.scopes.size = ρ.length
  /-- The root stands for itself. -/
  root : ρ[0]? = some .root
  /-- Younger scopes are renamed to younger scopes. -/
  increasing : ∀ {i j k l : Nat}, ρ[i]? = some k → ρ[j]? = some l → i < j → k < l
  /-- Corresponding scopes agree. -/
  frame : ∀ {i j : Nat}, ρ[i]? = some j → ∃ f g, s.scopes.frames[i]? = some f ∧
    t.scopes.frames[j]? = some g ∧ f.Renamed ρ i g

theorem Scope.Renamed.congr {ρ ρ' : List Scope.Index} {i : Nat} {f g : Scope}
    (h : f.Renamed ρ i g) (hρ : ∀ k ≤ i, ρ[k]? = ρ'[k]?) : f.Renamed ρ' i g := by
  have hsame : ∀ {k l}, k ≤ i ∧ ρ[k]? = some l → k ≤ i ∧ ρ'[k]? = some l :=
    fun hkl => ⟨hkl.1, hρ _ hkl.1 ▸ hkl.2⟩
  refine ⟨optionRel_imp h.outer fun hkl => ?_, h.bindings.mono hsame⟩
  exact ⟨hkl.1, hρ _ (Nat.le_of_lt hkl.1) ▸ hkl.2⟩

namespace State.Renamed

variable {ρ : List Scope.Index} {s t : State} {i j : Nat}

theorem lt_left (h : Renamed ρ s t) (hij : ρ[i]? = some j) : i < s.scopes.size := by
  obtain ⟨f, g, hf, -, -⟩ := h.frame hij
  exact Scopes.lt_size hf

theorem lt_right (h : Renamed ρ s t) (hij : ρ[i]? = some j) : j < t.scopes.size := by
  obtain ⟨f, g, -, hg, -⟩ := h.frame hij
  exact Scopes.lt_size hg

theorem injective (h : Renamed ρ s t) {i' : Nat} (hij : ρ[i]? = some j) (hij' : ρ[i']? = some j) :
    i = i' := by
  rcases Nat.lt_trichotomy i i' with hlt | heq | hgt
  · exact absurd (h.increasing hij hij' hlt) (Nat.lt_irrefl j)
  · exact heq
  · exact absurd (h.increasing hij' hij hgt) (Nat.lt_irrefl j)

/-- The renaming of the root alone. -/
theorem getElem?_root (hij : [Scope.Index.root][i]? = some j) :
    i = Scope.Index.root ∧ j = Scope.Index.root := by
  obtain ⟨hi, hj⟩ := List.getElem?_eq_some_iff.mp hij
  obtain rfl : i = 0 := by simpa using hi
  exact ⟨rfl, hj.symm⟩

theorem initial : Renamed [.root] .initial .initial := by
  refine ⟨rfl, rfl, rfl, fun hi hj hlt => ?_, fun hij => ?_⟩
  · rw [(getElem?_root hi).1, (getElem?_root hj).1] at hlt
    exact absurd hlt (Nat.lt_irrefl _)
  · obtain ⟨rfl, rfl⟩ := getElem?_root hij
    exact ⟨_, _, rfl, rfl, .none, Bindings.related_empty⟩

/-! ### Looking names up -/

/-- A name stands for the same thing in corresponding scopes. Outer scopes are older on both sides,
because younger scopes are renamed to younger scopes. -/
theorem lookup (h : Renamed ρ s t) (name : String) (hij : ρ[i]? = some j) :
    ∃ b c, s.scopes.lookup i name = .ok b ∧ t.scopes.lookup j name = .ok c ∧
      Option.Rel (Binding.Related fun k l => ρ[k]? = some l) b c := by
  refine @Scopes.lookup_rel _ _ name (fun k l => ρ[k]? = some l) _ (fun {i j} hij => ?_) i j hij
  obtain ⟨f, g, hf, hg, hfg⟩ := h.frame hij
  refine ⟨f, g, hf, hg, ?_, ?_⟩
  · exact (hfg.bindings.mono And.right).find? name
  · exact optionRel_imp hfg.outer fun hkl => ⟨⟨hkl.1, h.increasing hkl.2 hij hkl.1⟩, hkl.2⟩

/-! ### Binding a name -/

theorem insert (h : Renamed ρ s t) (hij : ρ[i]? = some j) (name : String) {b c : Binding}
    (hb : Binding.Related (fun k l => k = i ∧ l = j) b c) :
    ∃ a a', s.scopes.insert i name b = .ok a ∧ t.scopes.insert j name c = .ok a' ∧
      Renamed ρ { s with scopes := a } { t with scopes := a' } := by
  obtain ⟨a, ha, hsize, hframes⟩ := Scopes.insert_of_lt (h.lt_left hij) name b
  obtain ⟨a', ha', -, hframes'⟩ := Scopes.insert_of_lt (h.lt_right hij) name c
  refine ⟨a, a', ha, ha', h.output, hsize.trans h.size, h.root, h.increasing,
    fun {i' j'} hij' => ?_⟩
  obtain ⟨f, g, hf, hg, hfg⟩ := h.frame hij'
  simp only [hframes, hframes']
  by_cases hi : i' = i
  · subst hi
    obtain rfl : j' = j := Option.some.inj (hij'.symm.trans hij)
    refine ⟨{ f with bindings := f.bindings.insert name b },
      { g with bindings := g.bindings.insert name c }, by simp [hf], by simp [hg], hfg.outer,
      hfg.bindings.insert name ?_⟩
    exact hb.mono fun hkl => ⟨Nat.le_of_eq hkl.1, by rw [hkl.1, hkl.2, hij]⟩
  · have hj : j' ≠ j := by
      rintro rfl
      exact hi (h.injective hij' hij)
    exact ⟨f, g, by rw [if_neg hi, hf], by rw [if_neg hj, hg], hfg⟩

/-! ### A call begins and ends -/

/-- Opening a scope on both sides: the new scopes correspond. -/
theorem push (h : Renamed ρ s t) (hij : ρ[i]? = some j) {bs cs : Bindings}
    (hb : bs.Related (fun k l => ρ[k]? = some l) cs) :
    Renamed (ρ ++ [t.scopes.size]) { s with scopes := (s.scopes.push i bs).2 }
      { t with scopes := (t.scopes.push j cs).2 } := by
  have hlt : ∀ {k l : Nat}, ρ[k]? = some l → k < ρ.length :=
    fun hkl => h.size ▸ h.lt_left hkl
  have hold : ∀ {k l : Nat}, ρ[k]? = some l → (ρ ++ [t.scopes.size])[k]? = some l :=
    fun hkl => (List.getElem?_append_left (hlt hkl)).trans hkl
  have hsplit : ∀ {k l : Nat}, (ρ ++ [t.scopes.size])[k]? = some l →
      ρ[k]? = some l ∨ k = ρ.length ∧ l = t.scopes.size := by
    intro k l hkl
    rcases Nat.lt_trichotomy k ρ.length with hk | rfl | hk
    · exact .inl ((List.getElem?_append_left hk).symm.trans hkl)
    · exact .inr ⟨rfl, by simpa using hkl.symm⟩
    · simp [List.getElem?_append_right (Nat.le_of_lt hk), show k - ρ.length ≠ 0 by omega] at hkl
  refine ⟨h.output, ?_, hold h.root, fun {k k' l l'} hkl hkl' hlt' => ?_, fun {k l} hkl => ?_⟩
  · simpa using h.size
  · rcases hsplit hkl with hkl | ⟨rfl, rfl⟩ <;> rcases hsplit hkl' with hkl' | ⟨rfl, rfl⟩
    · exact h.increasing hkl hkl' hlt'
    · exact h.lt_right hkl
    · exact absurd hlt' (Nat.lt_asymm (hlt hkl'))
    · exact absurd hlt' (Nat.lt_irrefl _)
  · simp only [Scopes.getElem?_push]
    rcases hsplit hkl with hkl | ⟨rfl, rfl⟩
    · obtain ⟨f, g, hf, hg, hfg⟩ := h.frame hkl
      refine ⟨f, g, ?_, ?_, hfg.congr fun k' hk' => ?_⟩
      · rw [if_neg (Nat.ne_of_lt (Scopes.lt_size hf)), hf]
      · rw [if_neg (Nat.ne_of_lt (Scopes.lt_size hg)), hg]
      · exact (List.getElem?_append_left (Nat.lt_of_le_of_lt hk' (hlt hkl))).symm
    · refine ⟨⟨bs, some i⟩, ⟨cs, some j⟩, if_pos h.size.symm, if_pos rfl, ?_, ?_⟩
      · exact .some ⟨hlt hij, hold hij⟩
      · exact hb.mono fun hkl => ⟨Nat.le_of_lt (hlt hkl), hold hkl⟩

/-- The end of a call on the left only: its scope is dropped there, and no longer renamed. -/
theorem restrict {k : Scope.Index} (h : Renamed (ρ ++ [k]) s t) (hρ : ρ ≠ []) :
    Renamed ρ { s with scopes := s.scopes.dropFrom ρ.length } t := by
  have hpos : 0 < ρ.length := List.length_pos_iff.mpr hρ
  have hlt : ∀ {i j : Nat}, ρ[i]? = some j → i < ρ.length :=
    fun hij => (List.getElem?_eq_some_iff.mp hij).choose
  have hold : ∀ {i : Nat}, i < ρ.length → (ρ ++ [k])[i]? = ρ[i]? :=
    fun hi => List.getElem?_append_left hi
  refine ⟨h.output, ?_, (hold hpos).symm.trans h.root, fun hij hij' => ?_, fun {i j} hij => ?_⟩
  · have hsize := h.size
    rw [List.length_append, List.length_singleton] at hsize
    rw [Scopes.size_dropFrom, hsize]
    omega
  · exact h.increasing ((hold (hlt hij)).trans hij) ((hold (hlt hij')).trans hij')
  · obtain ⟨f, g, hf, hg, hfg⟩ := h.frame ((hold (hlt hij)).trans hij)
    refine ⟨f, g, ?_, hg, hfg.congr fun i' hi' => hold (Nat.lt_of_le_of_lt hi' (hlt hij))⟩
    rw [Scopes.getElem?_dropFrom, if_pos (Nat.lt_of_lt_of_le (hlt hij) (Nat.le_max_left _ _)), hf]

end State.Renamed

/-! ### The simulation -/

/-- **Dropping scopes changes nothing.** The world is the renaming of the live scopes. -/
def reclaiming : Simulation Eval Kept where
  World := List Scope.Index
  Same ρ i j := ρ[i]? = some j
  Rel ρ _ R x y := ∀ s t, State.Renamed ρ s t → Result.Related (State.Renamed ρ) R (x s) (y t)
  pure ha s t h := .ok ha h
  bind hx hf s t h := (hx s t h).bind fun a b s₁ t₁ hab h₁ => hf a b hab s₁ t₁ h₁
  fail he s t h := .error he h
  lookup hij name s t h := Eval.related_lookup h (h.lookup name hij)
  bindName hij name b c hb s t h := Eval.related_bindName (h.insert hij name hb)
  emit text s t h :=
    .ok rfl ⟨congrArg (·.push text) h.output, h.size, h.root, h.increasing, h.frame⟩
  inNewScope {ρ i j} hij bs cs hb α R f g hf s t h := by
    have hnew : (ρ ++ [t.scopes.size])[s.scopes.size]? = some t.scopes.size := by
      rw [h.size]
      simp
    have hρ : ρ ≠ [] := by
      rintro rfl
      cases h.root
    have hinner := hf hnew _ _ (h.push hij hb)
    show Result.Related _ _ (Eval.inNewScope i bs f s) (Kept.inNewScope j cs g t)
    simp only [Eval.inNewScope, Kept.inNewScope, Scopes.push_fst]
    generalize f _ _ = r, g _ _ = r' at hinner ⊢
    cases hinner with
    | ok ha h' => exact .ok ha (h.size ▸ h'.restrict hρ)
    | error he h' => exact .error he (h.size ▸ h'.restrict hρ)

/-! ### Sessions -/

namespace Program

/-- The counterpart of `freshRuns` in which no scope is ever dropped. -/
def keptRuns (runs : List (Nat × Program)) : List (Except EvalError (Option Value)) × State :=
  runAll (fun limit program => program.runIn Kept limit) runs .initial

theorem freshRuns_renamed (runs : List (Nat × Program)) :
    (freshRuns runs).1 = (keptRuns runs).1 ∧
      State.Renamed [.root] (freshRuns runs).2 (keptRuns runs).2 := by
  obtain ⟨hresults, -, hstates⟩ := runAll_related
    (fun limit program s t h => reclaiming.runIn (w := [.root]) rfl limit program s t h) runs
    State.Renamed.initial
  exact ⟨hresults, hstates⟩

/-- **Dropping scopes is unobservable.** For programs run one after another from a fresh state, with
any limits, it makes no difference whether scopes are dropped or kept: every run has the same value
or error, the same is printed, and every name stands for the same thing in the root, where a block
has captured the root. -/
theorem freshRuns_eq_keptRuns (runs : List (Nat × Program)) :
    (freshRuns runs).1 = (keptRuns runs).1 ∧
      (freshRuns runs).2.output = (keptRuns runs).2.output ∧
      ∀ name, ∃ b, (freshRuns runs).2.scopes.lookup .root name = .ok b ∧
        (keptRuns runs).2.scopes.lookup .root name = .ok b ∧
        ∀ c, b = some (.block c) → c.scope = .root := by
  obtain ⟨hresults, hstates⟩ := freshRuns_renamed runs
  refine ⟨hresults, hstates.output, fun name => ?_⟩
  obtain ⟨b, c, hb, hc, hbc⟩ := hstates.lookup name hstates.root
  cases hbc with
  | none => exact ⟨none, hb, hc, by simp⟩
  | @some b c hbc =>
    obtain rfl : b = c := hbc.eq fun hkl =>
      (State.Renamed.getElem?_root hkl).1.trans (State.Renamed.getElem?_root hkl).2.symm
    refine ⟨some b, hb, hc, fun c hblock => ?_⟩
    obtain rfl := Option.some.inj hblock
    cases hbc with
    | block _ hscope => exact (State.Renamed.getElem?_root hscope).1

end Program

end Blockscript
