import Blockscript.Proofs.Frame

/-!
# The arena is safe at every point of every session

A scope index is a plain number, and numbers are used again once the scopes behind them have been
dropped. This module shows that no evaluation ever uses an index that is not alive, whatever
programs are run and however they end.

What happens inside an evaluation cannot be read off its result. So evaluation is repeated in a
monad that keeps a record of every use of the arena, in order. The record says how to get the arena
at any point: replay the uses up to there. The traced evaluator is the evaluator itself, run over
operations that also write the record down, and apart from the record it does the same.

## Main definitions

* `Scopes.Use` : one use of the arena, with `Use.apply`, what it does, and `Use.Valid`, when it
  touches live scopes only.
* `Scopes.replay`, `Scopes.SafeRun` : the arena after some uses, and what is asked of it at every
  point.
* `Traced` : computations that keep a record of the uses of the arena.

## Main results

* `tracing` : the traced evaluator and the evaluator do the same, and all its uses are safe.
* `Program.runAll_arena_safe` : the headline, for every sequence of runs.
-/

namespace Blockscript

namespace Scopes

/-! ### Uses of the arena -/

/-- One use of the arena. -/
inductive Use where
  /-- A name is looked up in a scope. -/
  | lookup (id : Scope.Index) (name : String)
  /-- A name is bound in a scope. -/
  | bind (id : Scope.Index) (name : String) (b : Binding)
  /-- A scope is opened inside `outer`. -/
  | push (outer : Scope.Index) (bindings : Bindings)
  /-- A scope is dropped, with all later ones. -/
  | drop (id : Scope.Index)

/-- What a use does to the arena. -/
def Use.apply (a : Scopes) : Use → Scopes
  | .lookup _ _ => a
  | .bind id name b =>
    match a.insert id name b with
    | .ok a' => a'
    | .error _ => a
  | .push outer bindings => (a.push outer bindings).2
  | .drop id => a.dropFrom id

/-- Every scope that a use names is alive: the one in which a name is looked up or bound, the one in
which a new scope is opened, and those that closures have captured which are about to be bound.
Moreover a closure is bound in no scope older than the one that it has captured, and dropping
removes the youngest scope only. -/
def Use.Valid (a : Scopes) : Use → Prop
  | .lookup id _ => id < a.size
  | .bind id _ b => id < a.size ∧ ∀ c, b = .block c → c.scope ≤ id ∧ 1 ≤ c.arity
  | .push outer bindings =>
    outer < a.size ∧
      ∀ name c, bindings.find? name = some (.block c) → c.scope < a.size ∧ 1 ≤ c.arity
  | .drop id => 1 ≤ id ∧ id + 1 = a.size

/-- The arena after some uses. -/
def replay (a : Scopes) (uses : List Use) : Scopes :=
  uses.foldl Use.apply a

theorem replay_append (a : Scopes) (us vs : List Use) :
    a.replay (us ++ vs) = (a.replay us).replay vs :=
  List.foldl_append

/-- From the arena `a` on, each use is valid where it happens, and at every point the arena is
well-formed and has at least `floor` live scopes. -/
def SafeRun (floor : Nat) (a : Scopes) : List Use → Prop
  | [] => a.WellFormed ∧ floor ≤ a.size
  | u :: us => (a.WellFormed ∧ floor ≤ a.size) ∧ u.Valid a ∧ SafeRun floor (u.apply a) us

namespace SafeRun

variable {floor : Nat} {a : Scopes} {us vs : List Use}

theorem of_alive (h : a.Alive floor) : a.SafeRun floor [] :=
  ⟨h.toWellFormed, Nat.le_of_eq h.size_eq.symm⟩

theorem here (h : a.SafeRun floor us) : a.WellFormed ∧ floor ≤ a.size := by
  cases us with
  | nil => exact h
  | cons u us => exact h.1

theorem append (h : a.SafeRun floor us) (h' : (a.replay us).SafeRun floor vs) :
    a.SafeRun floor (us ++ vs) := by
  induction us generalizing a with
  | nil => exact h'
  | cons u us ih => exact ⟨h.1, h.2.1, ih h.2.2 h'⟩

theorem drop_left (h : a.SafeRun floor (us ++ vs)) : (a.replay us).SafeRun floor vs := by
  induction us generalizing a with
  | nil => exact h
  | cons u us ih => exact ih h.2.2

theorem last (h : a.SafeRun floor us) : (a.replay us).WellFormed ∧ floor ≤ (a.replay us).size := by
  rw [← List.append_nil us] at h
  exact h.drop_left.here

theorem mono {floor' : Nat} (hle : floor' ≤ floor) (h : a.SafeRun floor us) :
    a.SafeRun floor' us := by
  induction us generalizing a with
  | nil => exact ⟨h.1, Nat.le_trans hle h.2⟩
  | cons u us ih => exact ⟨⟨h.1.1, Nat.le_trans hle h.1.2⟩, h.2.1, ih h.2.2⟩

end SafeRun

end Scopes

/-! ### Evaluation with a record -/

/-- What traced evaluation works on: the state, and the uses of the arena so far, oldest first. -/
structure TracedState extends State where
  /-- The uses so far. -/
  trace : List Scopes.Use

/-- A fresh state, and no use yet. -/
def TracedState.initial : TracedState :=
  ⟨.initial, []⟩

/-- Computations that keep a record of the uses of the arena. -/
abbrev Traced (α : Type) := EStateM EvalError TracedState α

namespace Traced

/-- Does a step on the state that counts as the given uses of the arena. -/
def noting {α : Type} (uses : List Scopes.Use) (x : Eval α) : Traced α := fun t =>
  match x t.toState with
  | .ok a s => .ok a ⟨s, t.trace ++ uses⟩
  | .error e s => .error e ⟨s, t.trace ++ uses⟩

/-- Runs a computation in a new scope, and notes that the scope is opened and dropped. -/
def inNewScope {α : Type} (outer : Scope.Index) (bindings : Bindings)
    (run : Scope.Index → Traced α) : Traced α := fun t =>
  let (id, scopes) := t.scopes.push outer bindings
  match run id { t with scopes, trace := t.trace ++ [.push outer bindings] } with
  | .ok a t' =>
    .ok a { t' with scopes := t'.scopes.dropFrom id, trace := t'.trace ++ [.drop id] }
  | .error e t' =>
    .error e { t' with scopes := t'.scopes.dropFrom id, trace := t'.trace ++ [.drop id] }

instance : MonadScopes Traced where
  lookup id name := noting [.lookup id name] (Eval.lookup id name)
  bindName id name b := noting [.bind id name b] (Eval.bindName id name b)
  emit text := noting [] (Eval.emit text)
  inNewScope := inNewScope
  fail e := noting [] (Eval.fail e)

/-- How traced evaluation gets from `t` to `t'`: safely, with as many live scopes at the end as at
the beginning and never fewer in between; and `t'` is the state `s'` but for the record. -/
structure Follows (n : Nat) (t t' : TracedState) (s' : State) : Prop where
  /-- The state without the record. -/
  erased : t'.toState = s'
  /-- The number of live scopes. -/
  size : t'.scopes.size = n
  /-- The uses in between are on record, account for the arena, and are safe. -/
  uses : ∃ us, t'.trace = t.trace ++ us ∧ t'.scopes = t.scopes.replay us ∧ t.scopes.SafeRun n us

namespace Follows

variable {n : Nat} {t t₁ t₂ : TracedState} {s₁ s₂ : State}

theorem alive (h : Follows n t t₁ s₁) : t₁.scopes.Alive n := by
  obtain ⟨us, -, hscopes, hsafe⟩ := h.uses
  refine ⟨?_, h.size⟩
  rw [hscopes]
  exact hsafe.last.1

theorem refl (h : t.scopes.Alive n) : Follows n t t t.toState :=
  ⟨rfl, h.size_eq, [], by simp, rfl, .of_alive h⟩

theorem trans (h₁ : Follows n t t₁ s₁) (h₂ : Follows n t₁ t₂ s₂) : Follows n t t₂ s₂ := by
  obtain ⟨us, htrace, hscopes, hsafe⟩ := h₁.uses
  obtain ⟨vs, htrace', hscopes', hsafe'⟩ := h₂.uses
  refine ⟨h₂.erased, h₂.size, us ++ vs, ?_, ?_, ?_⟩
  · rw [htrace', htrace, List.append_assoc]
  · rw [hscopes', hscopes, Scopes.replay_append]
  · exact hsafe.append (hscopes ▸ hsafe')

/-- One use that leaves the number of live scopes as it is. -/
theorem of_use (h : t.scopes.Alive n) {u : Scopes.Use} (hu : u.Valid t.scopes) {s : State}
    (hs : s.scopes = u.apply t.scopes) (h' : s.scopes.Alive n) :
    Follows n t ⟨s, t.trace ++ [u]⟩ s := by
  refine ⟨rfl, h'.size_eq, [u], rfl, hs, (Scopes.SafeRun.of_alive h).here, hu, ?_⟩
  rw [← hs]
  exact .of_alive h'

/-- What happens in a new scope happens safely around it too: the uses inside, between opening and
dropping the scope. -/
theorem of_newScope (ht : t.scopes.Alive n) {outer : Scope.Index} {bindings : Bindings}
    (hu : (Scopes.Use.push outer bindings).Valid t.scopes)
    (h : Follows (n + 1) ⟨{ t.toState with scopes := (t.scopes.push outer bindings).2 },
      t.trace ++ [.push outer bindings]⟩ t₁ s₁) :
    Follows n t ⟨{ t₁.toState with scopes := t₁.scopes.dropFrom n }, t₁.trace ++ [.drop n]⟩
      { s₁ with scopes := s₁.scopes.dropFrom n } := by
  obtain ⟨us, htrace, hscopes, hsafe⟩ := h.uses
  replace hscopes : t₁.scopes = (t.scopes.push outer bindings).2.replay us := hscopes
  have hpos : 1 ≤ n := ht.size_eq ▸ ht.size_pos
  have hinner := h.size
  have hwf := h.alive.toWellFormed
  have hdropped : (t₁.scopes.dropFrom n).Alive n := by
    refine ⟨hwf.dropFrom n, ?_⟩
    rw [Scopes.size_dropFrom]
    omega
  refine ⟨by rw [h.erased], hdropped.size_eq, .push outer bindings :: us ++ [.drop n], ?_, ?_, ?_⟩
  · simp [htrace]
  · show t₁.scopes.dropFrom n = t.scopes.replay ((.push outer bindings :: us) ++ [.drop n])
    rw [Scopes.replay_append, hscopes]
    rfl
  · refine .append ⟨(Scopes.SafeRun.of_alive ht).here, hu, hsafe.mono (Nat.le_succ n)⟩ ?_
    show Scopes.SafeRun n ((t.scopes.push outer bindings).2.replay us) [.drop n]
    rw [← hscopes]
    exact ⟨⟨hwf, by omega⟩, ⟨hpos, hinner.symm⟩, .of_alive hdropped⟩

end Follows

/-! ### The steps with a record -/

section Steps

variable {α : Type} {R : α → α → Prop} {t : TracedState} {n : Nat} {i : Scope.Index}

theorem related_lookup (h : t.scopes.Alive n) (hi : i < n) (name : String) :
    Result.Related (Follows n t) (Binding.Related (Scope.Live n))
      (noting [.lookup i name] (Eval.lookup i name) t) (Eval.lookup i name t.toState) := by
  have hu : (Scopes.Use.lookup i name).Valid t.scopes := Nat.lt_of_lt_of_eq hi h.size_eq.symm
  have hfollows : Follows n t ⟨t.toState, t.trace ++ [.lookup i name]⟩ t.toState :=
    .of_use h hu rfl h
  rcases Eval.lookup_of_lt h hi name with ⟨b, hlookup, hb⟩ | hlookup
  · simp only [noting, hlookup]
    exact .ok hb hfollows
  · simp only [noting, hlookup]
    exact .error (by simp) hfollows

theorem related_bindName (h : t.scopes.Alive n) (hi : i < n) (name : String) {b : Binding}
    (hb : Binding.Related (fun k l => k = i ∧ l = i) b b) :
    Result.Related (Follows n t) Eq (noting [.bind i name b] (Eval.bindName i name b) t)
      (Eval.bindName i name b t.toState) := by
  rw [← h.size_eq] at hi
  obtain ⟨a, hinsert, hsize, hwf⟩ := h.insert hi name hb.captured_le
  have hu : (Scopes.Use.bind i name b).Valid t.scopes := ⟨hi, hb.captured_le⟩
  rw [noting, Eval.bindName, hinsert]
  refine .ok rfl (.of_use h hu ?_ ⟨hwf, hsize.trans h.size_eq⟩)
  rw [Scopes.Use.apply, hinsert]

/-- What runs in a new scope is followed by dropping that scope, and both go on record. -/
theorem inNewScope_eq (outer : Scope.Index) (bindings : Bindings) (run : Scope.Index → Traced α)
    (t : TracedState) :
    inNewScope outer bindings run t =
      Result.mapState (fun t' => { t' with
          scopes := t'.scopes.dropFrom t.scopes.size
          trace := t'.trace ++ [.drop t.scopes.size] })
        (run t.scopes.size { t with
          scopes := (t.scopes.push outer bindings).2
          trace := t.trace ++ [.push outer bindings] }) := by
  simp only [inNewScope, Scopes.push_fst]
  cases run t.scopes.size _ with
  | ok a t' => rfl
  | error e t' => rfl

theorem related_inNewScope (h : t.scopes.Alive n) (hi : i < n) {bs : Bindings}
    (hb : bs.Related (Scope.Live n) bs) {f : Scope.Index → Traced α} {g : Scope.Index → Eval α}
    (hf : ∀ t₁ : TracedState, t₁.scopes.Alive (n + 1) →
      Result.Related (Follows (n + 1) t₁) R (f n t₁) (g n t₁.toState)) :
    Result.Related (Follows n t) R (inNewScope i bs f t) (Eval.inNewScope i bs g t.toState) := by
  have hinner := hf { t with
    scopes := (t.scopes.push i bs).2
    trace := t.trace ++ [.push i bs] } (h.push hi hb)
  obtain rfl := h.size_eq
  rw [inNewScope_eq, Eval.inNewScope_eq]
  exact hinner.mapState fun t₁ s₁ h₁ => .of_newScope h ⟨hi, hb.captured_lt⟩ h₁

end Steps

end Traced

/-! ### The simulation -/

/-- **Tracing changes nothing, and every use is safe.** The world is the number of live scopes; an
index stands for itself, and is alive. -/
def tracing : Simulation Traced Eval where
  World := Nat
  Same := Scope.Live
  Rel n _ R x y := ∀ t : TracedState, t.scopes.Alive n →
    Result.Related (Traced.Follows n t) R (x t) (y t.toState)
  pure h t ht := .ok h (.refl ht)
  bind hx hf t ht := by
    refine (hx t ht).bind fun a b t₁ s₁ hab h₁ => ?_
    obtain rfl := h₁.erased
    exact (hf a b hab t₁ h₁.alive).imp fun t₂ s₂ h₂ => h₁.trans h₂
  fail he t ht := by
    refine .error he ?_
    simpa using Traced.Follows.refl ht
  lookup h name t ht := by
    obtain ⟨rfl, hi⟩ := h
    exact Traced.related_lookup ht hi name
  bindName h name b c hb t ht := by
    obtain ⟨rfl, hi⟩ := h
    obtain rfl := hb.eq fun h => h.1.trans h.2.symm
    exact Traced.related_bindName ht hi name hb
  emit text t ht := .ok rfl ⟨rfl, ht.size_eq, [], rfl, rfl, .of_alive ht⟩
  inNewScope {n i j} h bs cs hb α R f g hf t ht := by
    obtain ⟨rfl, hi⟩ := h
    obtain rfl := hb.eq fun h => h.1
    exact Traced.related_inNewScope ht hi hb fun t₁ ht₁ =>
      @hf (n + 1) n n ⟨rfl, Nat.lt_succ_self n⟩ t₁ ht₁

/-! ### Sessions -/

/-- **What is live stays live.** While an expression is evaluated, none of the scopes is dropped
that were alive when its evaluation began. So the closures that the evaluator holds meanwhile, such
as the arguments of a call that are already evaluated, keep their scopes. -/
theorem Traced.size_le_during_eval (limit depth : Nat) {id : Scope.Index} (e : Expr)
    {t : TracedState} (hwf : t.scopes.WellFormed) (hid : id < t.scopes.size) :
    ∃ uses, (Result.state (Expr.evalWithin (m := Traced) limit depth id e t)).trace =
        t.trace ++ uses ∧
      ∀ before after, uses = before ++ after →
        t.scopes.size ≤ (t.scopes.replay before).size := by
  have hrel := @Simulation.evalWithin _ _ _ _ tracing limit depth t.scopes.size id id ⟨rfl, hid⟩ e
    t ⟨hwf, rfl⟩
  obtain ⟨us, htrace, -, hsafe⟩ := hrel.state.uses
  refine ⟨us, htrace, ?_⟩
  rintro before after rfl
  exact hsafe.drop_left.here.2

namespace Program

/-- The traced counterpart of `freshRuns`. -/
def tracedRuns (runs : List (Nat × Program)) :
    List (Except EvalError (Option Value)) × TracedState :=
  runAll (fun limit program => program.runIn Traced limit) runs .initial

/-- The runs of a session, with their record: same results and same state, and from the first use of
the arena to the last every one is safe. -/
theorem tracedRuns_safe (runs : List (Nat × Program)) :
    (tracedRuns runs).1 = (freshRuns runs).1 ∧
      (∀ d, .error (.deadScope d) ∉ (tracedRuns runs).1) ∧
      Traced.Follows 1 .initial (tracedRuns runs).2 (freshRuns runs).2 := by
  refine runAll_related (fun limit program t s h => ?_) runs (.refl State.atRest_initial.alive)
  obtain rfl := h.erased
  have hrun := tracing.runIn (w := (1 : Nat)) ⟨rfl, Nat.one_pos⟩ limit program t h.alive
  exact hrun.imp fun t' s' h' => h.trans h'

/-- **The arena is safe in every session.** For programs run one after another from a fresh state,
with any limits and whether they succeed or not:

* the record of the traced runs belongs to the runs themselves, and accounts for their arena;
* at every point the arena is well-formed, the next use touches live scopes only, and every look-up
  in a live scope goes out to the root and gives the nearest binding on the way, where a closure has
  captured a live scope;
* nothing that is alive when the evaluation of an expression begins is dropped while it lasts;
* no run fails for a dead scope;
* between runs only the root is alive, and its closures have captured the root. -/
theorem runAll_arena_safe (runs : List (Nat × Program)) :
    ((tracedRuns runs).1 = (freshRuns runs).1 ∧ (tracedRuns runs).2.toState = (freshRuns runs).2 ∧
      (freshRuns runs).2.scopes = Scopes.initial.replay (tracedRuns runs).2.trace) ∧
    (∀ before after, (tracedRuns runs).2.trace = before ++ after →
      (Scopes.initial.replay before).WellFormed ∧
      (∀ use ∈ after.head?, use.Valid (Scopes.initial.replay before)) ∧
      ∀ id < (Scopes.initial.replay before).size, ∃ path,
        (Scopes.initial.replay before).Path id path ∧ ∀ name,
          (Scopes.initial.replay before).lookup id name =
            .ok ((Scopes.initial.replay before).nearest name path) ∧
          ∀ c, (Scopes.initial.replay before).nearest name path = some (.block c) →
            c.scope < (Scopes.initial.replay before).size) ∧
    (∀ limit depth id e (t : TracedState), t.scopes.WellFormed → id < t.scopes.size →
      ∃ uses, (Result.state (Expr.evalWithin (m := Traced) limit depth id e t)).trace =
          t.trace ++ uses ∧
        ∀ before after, uses = before ++ after →
          t.scopes.size ≤ (t.scopes.replay before).size) ∧
    (∀ d, .error (.deadScope d) ∉ (freshRuns runs).1) ∧
    (freshRuns runs).2.scopes.size = 1 ∧
      ∀ name c, (freshRuns runs).2.scopes.lookup .root name = .ok (some (.block c)) →
        c.scope = .root := by
  obtain ⟨hresults, hlive, hfollows⟩ := tracedRuns_safe runs
  obtain ⟨us, htrace, hscopes, hsafe⟩ := hfollows.uses
  obtain rfl : (tracedRuns runs).2.trace = us := htrace
  have hsize : (freshRuns runs).2.scopes.size = 1 := hfollows.erased ▸ hfollows.size
  have hwf : (freshRuns runs).2.scopes.WellFormed := hfollows.erased ▸ hfollows.alive.toWellFormed
  refine ⟨⟨hresults, hfollows.erased, hfollows.erased ▸ hscopes⟩, fun before after hsplit => ?_,
    fun limit depth id e t hwf hid => Traced.size_le_during_eval limit depth e hwf hid,
    hresults ▸ hlive, hsize, fun name c hc => ?_⟩
  · rw [hsplit] at hsafe
    have hrest := hsafe.drop_left
    refine ⟨hrest.here.1, ?_, fun id hid => ?_⟩
    · intro use huse
      cases after with
      | nil => cases huse
      | cons u rest =>
        cases huse
        exact hrest.2.1
    · obtain ⟨path, hpath, hnames⟩ := hrest.here.1.lookup_eq_nearest hid
      refine ⟨path, hpath, fun name => ⟨(hnames name).1, fun c hc => ?_⟩⟩
      exact Nat.lt_of_le_of_lt ((hnames name).2 c hc).1 hid
  · obtain ⟨path, -, hnames⟩ := hwf.lookup_eq_nearest (i := .root) (hsize ▸ Nat.one_pos)
    rw [(hnames name).1] at hc
    exact Nat.le_zero.mp ((hnames name).2 c (Except.ok.inj hc)).1

end Program

end Blockscript
