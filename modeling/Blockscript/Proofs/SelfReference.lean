import Blockscript.Proofs.Effects
import Blockscript.Proofs.Forwarding
import Blockscript.Proofs.OperatorTrees

/-!
# Blocks that call themselves

There are no conditionals, so a block whose value depends on a call of itself has no way to stop.
This module shows that it never returns: under every limit its evaluation ends with an error.

The block may do a lot before it comes to that call. Its body may print, bind names, call other
blocks and pass blocks around, and the call may stand anywhere among the operands of the tail. What
matters is that nothing of this changes what the name of the block means where the block runs. A
statement binds names in its own scope only, so in the scope of a call the name is hidden by a
parameter or by a statement of the body itself, or not at all; and further out nothing changes.

## Main definitions

* `Stmt.target?` : the name that a statement binds.
* `Closure.CallsItself` : the value of the block depends on a call of the block itself.

## Main results

* `Stmt.lookup_of_execAllWith_eq_ok` : statements do not change what a name means that they do not
  bind.
* `Closure.CallsItself.lookup_inside` : in the scope of a call the block is still known by its name.
* `Expr.evalWithin_callsItself` : the headline.
-/

namespace Blockscript

/-- The name that a statement binds. -/
def Stmt.target? : Stmt → Option String
  | .assign name _ => some name
  | .print _ => none
  | .expr _ => none

/-- The value of the block depends on a call of the block itself, by the name `f`: it stands for the
block where the block was defined, it is hidden neither by a parameter nor by a statement of the
body, and one of the operands of the tail is a reference to it. -/
structure Closure.CallsItself (a : Scopes) (c : Closure) (f : String) : Prop where
  lookup_eq : a.lookup c.scope f = .ok (some (.block c))
  not_param : f ∉ c.block.params
  not_target : ∀ stmt ∈ c.block.body, stmt.target? ≠ some f
  exists_leaf : ∃ args, .ref f args ∈ c.block.tail.tree.leaves

/-! ### Names that statements do not bind -/

section

variable {s s' : State} {i : Scope.Index} {limit depth : Nat} {f : String}

/-- In an older scope a name means the same after statements have been executed. -/
theorem State.Extended.lookup_of_lt (h : s.Extended i s') (hwf : s.scopes.WellFormed)
    (hi : i < s.scopes.size) {k : Scope.Index} (hk : k < i) (name : String) :
    s'.scopes.lookup k name = s.scopes.lookup k name := by
  refine hwf.lookup_congr (Nat.lt_trans hk hi) (fun l hl => h.frame l ?_) name
  exact Nat.ne_of_lt (Nat.lt_of_le_of_lt hl hk)

/-- A statement does not change what a name means that it does not bind. -/
theorem Stmt.lookup_of_execWith_eq_ok (hwf : s.scopes.WellFormed) (hi : i < s.scopes.size)
    {stmt : Stmt} {v : Option Value}
    (h : Stmt.execWith (m := Eval) (Expr.evalWithin limit depth) i stmt s = .ok v s')
    (hf : stmt.target? ≠ some f) :
    s.Extended i s' ∧ s'.scopes.lookup i f = s.scopes.lookup i f := by
  have hextended := (LocalSimulation.execWith (counting_evalWithin 0 limit depth)
    (w := ⟨s.scopes.size, i⟩) ⟨rfl, rfl, hi⟩ stmt s ⟨hwf, rfl⟩).state.2
  have heffect := Stmt.effect_execWith hwf hi limit depth stmt
  rw [h] at hextended heffect
  refine ⟨hextended, ?_⟩
  cases heffect with
  | printed e _ => rfl
  | evaluated e _ => rfl
  | bound name block _ hshadows =>
    have hne : f ≠ name := by
      rintro rfl
      exact hf rfl
    show Scopes.lookup _ i f = _
    rw [hshadows.lookup_here f, if_neg hne]

/-- **Statements do not change what a name means that they do not bind.** -/
theorem Stmt.lookup_of_execAllWith_eq_ok (hwf : s.scopes.WellFormed) (hi : i < s.scopes.size)
    {stmts : List Stmt}
    (h : Stmt.execAllWith (m := Eval) (Expr.evalWithin limit depth) i stmts s = .ok () s')
    (hf : ∀ stmt ∈ stmts, stmt.target? ≠ some f) :
    s.Extended i s' ∧ s'.scopes.lookup i f = s.scopes.lookup i f := by
  induction stmts generalizing s with
  | nil =>
    rw [Stmt.execAllWith] at h
    obtain ⟨-, rfl⟩ := EStateM.Result.ok.inj h
    exact ⟨(State.Printed.refl s).extended hwf i, rfl⟩
  | cons stmt rest ih =>
    obtain ⟨hstmt, hrest⟩ := List.forall_mem_cons.mp hf
    rw [Stmt.execAllWith] at h
    obtain ⟨v, s₁, hrun, h⟩ := Eval.exists_of_bind_eq_ok h
    obtain ⟨hextended, hlookup⟩ := Stmt.lookup_of_execWith_eq_ok hwf hi hrun hstmt
    obtain ⟨hextended', hlookup'⟩ := ih hextended.wellFormed (hextended.size ▸ hi) h hrest
    exact ⟨hextended.trans hextended', hlookup'.trans hlookup⟩

end

/-! ### Inside a call -/

namespace Closure.CallsItself

variable {s s' : State} {c : Closure} {f : String} {bs : List Binding} {limit depth : Nat}

/-- It does not matter to a block that calls itself what happens in scopes younger than its own. -/
theorem of_lookup_eq {a a' : Scopes} (h : c.CallsItself a f)
    (hlookup : a'.lookup c.scope f = a.lookup c.scope f) : c.CallsItself a' f :=
  ⟨hlookup.trans h.lookup_eq, h.not_param, h.not_target, h.exists_leaf⟩

/-- **In the scope of a call the block is still known by its name**, when its body has been
executed. -/
theorem lookup_inside (h : c.CallsItself s.scopes f) (hwf : s.scopes.WellFormed)
    (hc : c.scope < s.scopes.size)
    (hbs : List.Forall₂ (Binding.Related (Scope.Live s.scopes.size)) bs bs)
    (hbody : Stmt.execAllWith (m := Eval) (Expr.evalWithin limit depth) s.scopes.size c.block.body
      { s with scopes := (s.scopes.push c.scope (.ofList (c.block.params.zip bs))).2 } =
        .ok () s') :
    s'.scopes.WellFormed ∧ s.scopes.size < s'.scopes.size ∧
      s'.scopes.lookup s.scopes.size f = .ok (some (.block c)) ∧ c.CallsItself s'.scopes f := by
  have hpush := hwf.push_ofList hc c.block.params hbs
  have hlive : s.scopes.size <
      (s.scopes.push c.scope (.ofList (c.block.params.zip bs))).2.size := by
    rw [Scopes.size_push]
    omega
  have hhidden : (Bindings.ofList (c.block.params.zip bs)).find? f = none := by
    refine Bindings.find?_foldl_insert_of_not_mem (fun hmem => h.not_param ?_) .empty
    obtain ⟨entry, hentry, rfl⟩ := List.mem_map.mp hmem
    exact (List.of_mem_zip hentry).1
  obtain ⟨hextended, hlookup⟩ := Stmt.lookup_of_execAllWith_eq_ok hpush hlive hbody h.not_target
  have hinside := hwf.lookup_push_self hc (.ofList (c.block.params.zip bs)) f
  rw [hhidden] at hinside
  refine ⟨hextended.wellFormed, hextended.size ▸ hlive, ?_, h.of_lookup_eq ?_⟩
  · rw [hlookup, hinside]
    exact h.lookup_eq
  · rw [hextended.lookup_of_lt hpush hlive hc, hwf.lookup_push hc]

end Closure.CallsItself

/-! ### The recursion never ends -/

/-- What fails in a new scope fails. -/
theorem Eval.exists_error_inNewScope {α : Type} {s s' : State} {outer : Scope.Index}
    {bindings : Bindings} {run : Scope.Index → Eval α} {e : EvalError}
    (h : run s.scopes.size { s with scopes := (s.scopes.push outer bindings).2 } = .error e s') :
    ∃ s'', Eval.inNewScope outer bindings run s = .error e s'' := by
  refine ⟨{ s' with scopes := s'.scopes.dropFrom s.scopes.size }, ?_⟩
  simp only [Eval.inNewScope, Scopes.push_fst, h]

namespace Expr

variable {s : State} {i : Scope.Index} {name f : String} {c : Closure}

/-- A call of a block that calls itself fails if all calls of it with fewer levels do. -/
theorem exists_error_of_call (hwf : s.scopes.WellFormed) (hlive : c.scope < s.scopes.size)
    (hc : c.CallsItself s.scopes f) {bs : List Binding}
    (hbs : List.Forall₂ (Binding.Related (Scope.Live s.scopes.size)) bs bs)
    {limit depth : Nat}
    (hcalls : ∀ d ≤ depth, ∀ {s' : State} {k : Scope.Index}, s'.scopes.WellFormed →
      k < s'.scopes.size → s'.scopes.lookup k f = .ok (some (.block c)) →
      c.CallsItself s'.scopes f → ∀ args,
        ∃ e s'', evalWithin (m := Eval) limit d k (.ref f args) s' = .error e s'') :
    ∃ e s', Eval.inNewScope c.scope (.ofList (c.block.params.zip bs))
      (fun inner => Block.runWith (evalWithin limit depth) inner c.block) s = .error e s' := by
  suffices hrun : ∃ e s', Block.runWith (m := Eval) (evalWithin limit depth) s.scopes.size c.block
      { s with scopes := (s.scopes.push c.scope (.ofList (c.block.params.zip bs))).2 } =
        .error e s' by
    obtain ⟨e, s', hrun⟩ := hrun
    exact ⟨e, Eval.exists_error_inNewScope hrun⟩
  rw [Block.runWith]
  cases hbody : Stmt.execAllWith (m := Eval) (evalWithin limit depth) s.scopes.size c.block.body
      { s with scopes := (s.scopes.push c.scope (.ofList (c.block.params.zip bs))).2 } with
  | error e s' => exact ⟨e, s', Eval.bind_of_eq_error hbody _⟩
  | ok _ s' =>
    rw [Eval.bind_of_eq_ok hbody]
    obtain ⟨hwf', hlive', hlookup, hc'⟩ := hc.lookup_inside hwf hlive hbs hbody
    obtain ⟨args, hleaf⟩ := hc.exists_leaf
    refine evalWithin_failsIn hwf' hlive' hleaf (fun d hd t ht => ?_) s' rfl
    rw [← ht] at hwf' hlive' hlookup hc'
    exact hcalls d hd hwf' hlive' hlookup hc' args

/-- Whoever calls a block that calls itself gets an error. The induction is on the levels that are
left, since the call inside the block has fewer. -/
theorem exists_error_of_callsItself (hwf : s.scopes.WellFormed) (hi : i < s.scopes.size)
    (hname : s.scopes.lookup i name = .ok (some (.block c))) (hc : c.CallsItself s.scopes f)
    (args : List Expr) (limit depth : Nat) :
    ∃ e s', evalWithin (m := Eval) limit depth i (.ref name args) s = .error e s' := by
  induction depth using Nat.strong_induction_on generalizing s i name args with
  | _ depth ih =>
    cases depth with
    | zero => exact ⟨_, _, rfl⟩
    | succ depth =>
      rw [evalWithin_ref_of_block hname]
      by_cases hlength : args.length = c.arity
      · cases hargs : argumentsWith (m := Eval) (evalWithin limit depth) i args s with
        | error e s₁ => exact ⟨e, s₁, invokeWith_of_arguments_eq_error hlength hargs⟩
        | ok bs s₁ =>
          rw [invokeWith_of_arguments_eq_ok hlength hargs]
          have hlive := (hwf.live_of_lookup hi hname).1
          obtain ⟨hprinted, hbs⟩ := related_of_argumentsWith_eq_ok hwf hi hargs
          rw [← hprinted.scopes] at hwf hlive hc hbs
          refine exists_error_of_call hwf hlive hc hbs fun d hd _ _ hwf' hk hlookup hc' args' => ?_
          exact ih d (Nat.lt_succ_of_le hd) hwf' hk hlookup hc' args'
      · rw [invokeWith, if_neg hlength]
        exact ⟨_, _, rfl⟩

/-- **Blocks that call themselves never return.** Let the value of a block depend on a call of the
block itself, and let `name` stand for that block in the scope `i`. Whatever the arguments, the
limit and the levels that are left, the invocation of that name ends with an error, and the error is
one of the program, not that of a scope that is not alive. -/
theorem evalWithin_callsItself (hwf : s.scopes.WellFormed) (hi : i < s.scopes.size)
    (hname : s.scopes.lookup i name = .ok (some (.block c))) (hc : c.CallsItself s.scopes f)
    (args : List Expr) (limit depth : Nat) :
    ∃ e s', evalWithin (m := Eval) limit depth i (.ref name args) s = .error e s' ∧
      ∀ d, e ≠ .deadScope d := by
  obtain ⟨e, s', herror⟩ := exists_error_of_callsItself hwf hi hname hc args limit depth
  have hrelated := counting_evalWithin 0 limit depth (w := ⟨s.scopes.size, i⟩) ⟨rfl, rfl, hi⟩
    (.ref name args) s ⟨hwf, rfl⟩
  rw [herror] at hrelated
  exact ⟨e, s', herror, hrelated.ne_deadScope⟩

end Expr

/-- A block that binds a name, prints, and then has a call of itself deep in its tail. -/
def Block.countUp : Block :=
  ⟨["n"], [.assign "m" ⟨[], [], .binary .add (.ref "n" []) (.int 1)⟩, .print (.ref "m" [])],
    .binary .mul (.int 2) (.binary .sub (.ref "m" []) (.ref "count" [.ref "m" []]))⟩

/-- A root that binds `count` to that block, and a scope inside it to which the block has been
passed under the name `g`. -/
def State.passedOn : State where
  scopes := ((Program.freshRuns [(1, [.assign "count" Block.countUp])]).2.scopes.push .root
    (.ofList (["g"].zip [.block ⟨Block.countUp, .root⟩]))).2
  output := #[]

/-- Whatever the limit, `g 0` fails; with seven levels it has counted to two when it does. -/
theorem Expr.evalWithin_countUp_callsItself :
    State.passedOn.scopes.WellFormed ∧ 1 < State.passedOn.scopes.size ∧
      State.passedOn.scopes.lookup 1 "g" = .ok (some (.block ⟨Block.countUp, .root⟩)) ∧
      Closure.CallsItself State.passedOn.scopes ⟨Block.countUp, .root⟩ "count" ∧
      (∀ limit depth, ∃ e s', evalWithin (m := Eval) limit depth 1 (.ref "g" [.int 0])
        State.passedOn = .error e s' ∧ ∀ d, e ≠ .deadScope d) ∧
      ∃ s', evalWithin (m := Eval) 7 7 1 (.ref "g" [.int 0]) State.passedOn =
        .error (.recursionLimit 7) s' ∧ s'.output.toList = ["1", "2"] := by
  have hrest := Program.freshRuns_atRest [(1, [.assign "count" Block.countUp])]
  have hwf : State.passedOn.scopes.WellFormed := by
    refine hrest.wellFormed.push_ofList hrest.wellFormed.size_pos ["g"] (.cons ?_ .nil)
    exact .block (by decide) ⟨rfl, hrest.wellFormed.size_pos⟩
  have hlive : 1 < State.passedOn.scopes.size := by decide
  have hname : State.passedOn.scopes.lookup 1 "g" =
      .ok (some (.block ⟨Block.countUp, .root⟩)) := rfl
  have hcalls : Closure.CallsItself State.passedOn.scopes ⟨Block.countUp, .root⟩ "count" := by
    refine ⟨rfl, by decide, by simp [Block.countUp, Stmt.target?], [.ref "m" []], ?_⟩
    simp [Block.countUp, Expr.tree, OpTree.leaves]
  exact ⟨hwf, hlive, hname, hcalls, evalWithin_callsItself hwf hlive hname hcalls [.int 0],
    _, rfl, by decide⟩

end Blockscript
