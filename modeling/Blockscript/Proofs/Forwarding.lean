import Blockscript.Proofs.Approximation
import Blockscript.Proofs.Bisimulation

/-!
# Handing a block on

A block can be passed by name: a reference without arguments to a block that expects some is not
evaluated, it hands the block on. This module shows that to go through another block in this way
makes no difference. If `apply` takes a block `f` and arguments `x₁ … xₙ` and its value is
`f x₁ … xₙ`, then `apply g a₁ … aₙ` is `g a₁ … aₙ`, whatever the arguments are.

The arguments are evaluated once, where the caller stands, in both cases. What they come to is bound
to the parameters of `apply` and taken from there by name, so that a value stays a value and a block
stays a block over the scope in which it was defined. The block `g` then runs with one scope more on
the arena, to which nothing refers, and with one level less. The first cannot be told, and the
second only matters if the limit is reached.

## Main definitions

* `Block.forwarder` : the block that hands its first argument the others.

## Main results

* `Bindings.find?_ofList_of_mem` : distinct names are bound each to its own binding.
* `Expr.argumentsWith_names` : names hand on what they stand for.
* `Block.inNewScope_forwarder` : a call of the forwarder is a call of what it is given.
* `Expr.evalWithin_forwarder_eq` : the headline.
-/

namespace Blockscript

/-! ### Distinct names -/

namespace Bindings

variable {entries : List (String × Binding)} {name : String}

theorem find?_foldl_insert_of_not_mem (h : name ∉ entries.map Prod.fst) (bs : Bindings) :
    (entries.foldl (fun bs p => bs.insert p.1 p.2) bs).find? name = bs.find? name := by
  induction entries generalizing bs with
  | nil => rfl
  | cons entry rest ih =>
    rw [List.map_cons, List.mem_cons, not_or] at h
    rw [List.foldl_cons, ih h.2, find?_insert, if_neg h.1]

/-- Names that are distinct are bound each to its own binding. -/
theorem find?_ofList_of_mem {b : Binding} (hdistinct : (entries.map Prod.fst).Nodup)
    (h : (name, b) ∈ entries) : (ofList entries).find? name = some b := by
  suffices key : ∀ bs : Bindings,
      (entries.foldl (fun bs p => bs.insert p.1 p.2) bs).find? name = some b from key empty
  induction entries with
  | nil => simp at h
  | cons entry rest ih =>
    intro bs
    rw [List.map_cons, List.nodup_cons] at hdistinct
    rcases List.mem_cons.mp h with rfl | hmem
    · rw [List.foldl_cons, find?_foldl_insert_of_not_mem hdistinct.1, find?_insert, if_pos rfl]
    · exact ih hdistinct.2 hmem _

end Bindings

/-! ### Calls, step by step -/

namespace Expr

variable {s s₁ : State} {i : Scope.Index} {eval : ExprEval Eval} {name : String}

/-- A reference to a block is a call. -/
theorem evalWithin_ref_of_block {c : Closure}
    (h : s.scopes.lookup i name = .ok (some (.block c))) (limit depth : Nat) (args : List Expr) :
    evalWithin (m := Eval) limit (depth + 1) i (.ref name args) s =
      invokeWith (m := Eval) (evalWithin limit depth) i name c args s := by
  have hlookup : Eval.lookup i name s = .ok (.block c) s := by
    rw [Eval.lookup, h]
  exact Eval.bind_of_eq_ok hlookup _

/-- A call whose arguments have been evaluated. -/
theorem invokeWith_of_arguments_eq_ok {c : Closure} {args : List Expr} {bs : List Binding}
    (hlength : args.length = c.arity) (h : argumentsWith eval i args s = .ok bs s₁) :
    invokeWith eval i name c args s =
      Eval.inNewScope c.scope (.ofList (c.block.params.zip bs))
        (fun inner => Block.runWith eval inner c.block) s₁ := by
  rw [invokeWith, if_pos hlength]
  exact Eval.bind_of_eq_ok h _

/-- A call one of whose arguments has failed. -/
theorem invokeWith_of_arguments_eq_error {c : Closure} {args : List Expr} {e : EvalError}
    (hlength : args.length = c.arity) (h : argumentsWith eval i args s = .error e s₁) :
    invokeWith eval i name c args s = .error e s₁ := by
  rw [invokeWith, if_pos hlength]
  exact Eval.bind_of_eq_error h _

/-! ### Names as arguments -/

/-- A name hands on what it stands for, unless that is a block without parameters. -/
theorem argumentWith_name (eval : ExprEval Eval) {b : Binding}
    (h : s.scopes.lookup i name = .ok (some b)) (hb : ∀ c, b = .block c → 0 < c.arity) :
    argumentWith eval i (.ref name []) s = .ok b s := by
  have hlookup : Eval.lookup i name s = .ok b s := by
    rw [Eval.lookup, h]
  refine (Eval.bind_of_eq_ok hlookup _).trans ?_
  cases b with
  | value v => rfl
  | block c =>
    dsimp only
    rw [if_pos (hb c rfl)]
    rfl

/-- **Names hand on what they stand for.** Nothing is evaluated. -/
theorem argumentsWith_names (eval : ExprEval Eval) {names : List String} {bs : List Binding}
    (h : List.Forall₂ (fun name b => s.scopes.lookup i name = .ok (some b)) names bs)
    (hblocks : ∀ b ∈ bs, ∀ c, b = .block c → 0 < c.arity) :
    argumentsWith eval i (names.map fun name => .ref name []) s = .ok bs s := by
  induction h with
  | nil => rfl
  | cons hname _ ih =>
    obtain ⟨hb, hbs⟩ := List.forall_mem_cons.mp hblocks
    rw [List.map_cons, argumentsWith]
    refine (Eval.bind_of_eq_ok (argumentWith_name eval hname hb) _).trans ?_
    exact Eval.bind_of_eq_ok (ih hbs) _

theorem length_of_argumentsWith_eq_ok {args : List Expr} {bs : List Binding}
    (h : argumentsWith eval i args s = .ok bs s₁) : bs.length = args.length := by
  induction args generalizing s s₁ bs with
  | nil =>
    obtain ⟨rfl, -⟩ := EStateM.Result.ok.inj h
    rfl
  | cons arg rest ih =>
    obtain ⟨b, s₂, -, h⟩ := Eval.exists_of_bind_eq_ok h
    obtain ⟨bs', s₃, hrest, h⟩ := Eval.exists_of_bind_eq_ok h
    obtain ⟨rfl, -⟩ := EStateM.Result.ok.inj h
    rw [List.length_cons, List.length_cons, ih hrest]

/-- What arguments come to are values and closures over live scopes, and nothing has happened but
that something may have been printed. -/
theorem related_of_argumentsWith_eq_ok (hwf : s.scopes.WellFormed) (hi : i < s.scopes.size)
    {limit depth : Nat} {args : List Expr} {bs : List Binding}
    (h : argumentsWith (m := Eval) (evalWithin limit depth) i args s = .ok bs s₁) :
    s.Printed s₁ ∧ List.Forall₂ (Binding.Related (Scope.Live s.scopes.size)) bs bs := by
  have hrelated := LocalSimulation.argumentsWith (counting_evalWithin 0 limit depth)
    (w := ⟨s.scopes.size, i⟩) ⟨rfl, rfl, hi⟩ args s ⟨hwf, rfl⟩
  rw [h] at hrelated
  obtain ⟨bs', t, -, hbs, -, hprinted⟩ := hrelated.of_ok
  have heq : bs' = bs :=
    List.forall₂_eq_eq_eq ▸ hbs.imp fun b c hbc => hbc.eq fun hkl => hkl.1
  exact ⟨hprinted, heq ▸ hbs⟩

end Expr

/-! ### The scope of a call -/

namespace Scopes.WellFormed

variable {a : Scopes} {outer : Scope.Index} {bs : List Binding}

/-- A scope may be opened with values and closures over live scopes. -/
theorem push_ofList (h : a.WellFormed) (ho : outer < a.size) (names : List String)
    (hbs : List.Forall₂ (Binding.Related (Scope.Live a.size)) bs bs) :
    (a.push outer (.ofList (names.zip bs))).2.WellFormed := by
  exact h.push ho (Bindings.related_ofList_zip names hbs).captured_lt

/-- In the scope of a call, each of the parameters stands for its own argument. -/
theorem lookup_push_ofList (h : a.WellFormed) (ho : outer < a.size) {names : List String}
    (hdistinct : names.Nodup) (hlength : names.length = bs.length) :
    List.Forall₂ (fun name b =>
      (a.push outer (.ofList (names.zip bs))).2.lookup a.size name = .ok (some b)) names bs := by
  have hnames : (names.zip bs).map Prod.fst = names := List.map_fst_zip (Nat.le_of_eq hlength)
  refine List.forall₂_iff_zip.mpr ⟨hlength, fun {name b} hmem => ?_⟩
  have hfound : (Bindings.ofList (names.zip bs)).find? name = some b :=
    Bindings.find?_ofList_of_mem (hnames.symm ▸ hdistinct) hmem
  rw [h.lookup_push_self ho, hfound]

end Scopes.WellFormed

/-! ### The forwarder -/

/-- The block that hands its first argument the others. -/
def Block.forwarder (f : String) (xs : List String) : Block :=
  ⟨f :: xs, [], .ref f (xs.map fun x => .ref x [])⟩

/-- Where its first parameter stands for the closure `c`, the forwarder calls `c` with what its
other parameters stand for. -/
theorem Block.runWith_forwarder {s : State} {i : Scope.Index} {f : String} {xs : List String}
    {c : Closure} {bs : List Binding} (hf : s.scopes.lookup i f = .ok (some (.block c)))
    (hxs : List.Forall₂ (fun x b => s.scopes.lookup i x = .ok (some b)) xs bs)
    (hblocks : ∀ b ∈ bs, ∀ d, b = .block d → 0 < d.arity) (hlength : xs.length = c.arity)
    (limit depth : Nat) :
    Block.runWith (m := Eval) (Expr.evalWithin limit (depth + 1)) i (Block.forwarder f xs) s =
      Eval.inNewScope c.scope (.ofList (c.block.params.zip bs))
        (fun inner => Block.runWith (Expr.evalWithin limit depth) inner c.block) s := by
  rw [Block.runWith, Block.forwarder, Stmt.execAllWith, pure_bind,
    Expr.evalWithin_ref_of_block hf]
  exact Expr.invokeWith_of_arguments_eq_ok (by rw [List.length_map, hlength])
    (Expr.argumentsWith_names _ hxs hblocks)

/-- **A call of the forwarder is a call of what it is given**, one level further down. -/
theorem Block.inNewScope_forwarder {s : State} (hwf : s.scopes.WellFormed) {k : Scope.Index}
    (hk : k < s.scopes.size) {f : String} {xs : List String} (hdistinct : (f :: xs).Nodup)
    {c : Closure} (hc : c.scope < s.scopes.size ∧ 0 < c.arity) (hxs : xs.length = c.arity)
    {bs : List Binding} (hlength : bs.length = c.arity)
    (hbs : List.Forall₂ (Binding.Related (Scope.Live s.scopes.size)) bs bs)
    (limit depth : Nat) :
    Eval.inNewScope k (.ofList ((f :: xs).zip (.block c :: bs)))
        (fun inner => Block.runWith (Expr.evalWithin limit (depth + 1)) inner
          (Block.forwarder f xs)) s =
      Eval.inNewScope c.scope (.ofList (c.block.params.zip bs))
        (fun inner => Block.runWith (Expr.evalWithin limit depth) inner c.block) s := by
  have hall : List.Forall₂ (Binding.Related (Scope.Live s.scopes.size))
      (.block c :: bs) (.block c :: bs) := by
    refine .cons (Binding.related_self ?_) hbs
    rintro _ ⟨⟩
    exact ⟨hc.2, rfl, hc.1⟩
  have hpush := hwf.push_ofList hk (f :: xs) hall
  have hlengths : (f :: xs).length = (Binding.block c :: bs).length := by simp [hxs, hlength]
  have hnames := hwf.lookup_push_ofList hk hdistinct hlengths
  obtain ⟨hf, hothers⟩ := List.forall₂_cons.mp hnames
  have hblocks : ∀ b ∈ bs, ∀ d, b = .block d → 0 < d.arity := by
    rintro b hb d rfl
    cases List.forall₂_same.mp hbs _ hb with
    | block harity _ => exact harity
  refine Eval.inNewScope_eq_of_related hwf.size_pos ?_
  rw [Block.runWith_forwarder hf hothers hblocks hxs]
  exact Block.inNewScope_of_bisimilar hwf hpush (hwf.bisimilar_push ..) ⟨rfl, hc.1⟩
    (Bindings.related_ofList_zip _ hbs) limit depth c.block

/-- Where the limit is not reached, the level that the forwarder takes does not matter. -/
theorem Block.inNewScope_forwarder_of_ended {s : State} (hwf : s.scopes.WellFormed)
    {k : Scope.Index} (hk : k < s.scopes.size) {f : String} {xs : List String}
    (hdistinct : (f :: xs).Nodup) {c : Closure} (hc : c.scope < s.scopes.size ∧ 0 < c.arity)
    (hxs : xs.length = c.arity) {bs : List Binding} (hlength : bs.length = c.arity)
    (hbs : List.Forall₂ (Binding.Related (Scope.Live s.scopes.size)) bs bs)
    {limit depth : Nat}
    (hended : ∀ l s', Eval.inNewScope k (.ofList ((f :: xs).zip (.block c :: bs)))
      (fun inner => Block.runWith (Expr.evalWithin limit depth) inner (Block.forwarder f xs)) s ≠
        .error (.recursionLimit l) s') :
    Eval.inNewScope k (.ofList ((f :: xs).zip (.block c :: bs)))
        (fun inner => Block.runWith (Expr.evalWithin limit depth) inner
          (Block.forwarder f xs)) s =
      Eval.inNewScope c.scope (.ofList (c.block.params.zip bs))
        (fun inner => Block.runWith (Expr.evalWithin limit depth) inner c.block) s := by
  cases depth with
  | zero => exact absurd rfl (hended limit _)
  | succ depth =>
    have hcall := Block.inNewScope_forwarder hwf hk hdistinct hc hxs hlength hbs limit depth
    have hdeeper := Expr.evalWithin_approximates limit (Nat.le_succ depth)
    have happroximates : Eval.Approximates
        (Eval.inNewScope c.scope (.ofList (c.block.params.zip bs))
          fun inner => Block.runWith (Expr.evalWithin limit depth) inner c.block)
        (Eval.inNewScope c.scope (.ofList (c.block.params.zip bs))
          fun inner => Block.runWith (Expr.evalWithin limit (depth + 1)) inner c.block) :=
      .inNewScope fun inner => Block.approximates_runWith hdeeper inner c.block
    rcases happroximates s with ⟨l, s', hcut⟩ | hagree
    · exact absurd (hcall.trans hcut) (hended l s')
    · exact hcall.trans hagree.symm

/-- **Handing a block on makes no difference.** Let `g` stand for a block in the scope `i`, and
`apply` for the forwarder with as many further parameters as that block takes arguments, all of them
distinct. If `apply g a₁ … aₙ`, evaluated in that scope, does not run into the limit, it ends as
`g a₁ … aₙ` does: with the same value or error, the same output and the same scopes. -/
theorem Expr.evalWithin_forwarder_eq {s : State} (hwf : s.scopes.WellFormed) {i : Scope.Index}
    (hi : i < s.scopes.size) {apply g f : String} {xs : List String} {k : Scope.Index}
    (happly : s.scopes.lookup i apply = .ok (some (.block ⟨Block.forwarder f xs, k⟩)))
    {c : Closure} (hg : s.scopes.lookup i g = .ok (some (.block c)))
    (hdistinct : (f :: xs).Nodup) (hxs : xs.length = c.arity) {args : List Expr}
    (hargs : args.length = c.arity) {limit depth : Nat}
    (hended : ∀ l s', Expr.evalWithin (m := Eval) limit depth i (.ref apply (.ref g [] :: args)) s ≠
      .error (.recursionLimit l) s') :
    Expr.evalWithin (m := Eval) limit depth i (.ref apply (.ref g [] :: args)) s =
      Expr.evalWithin (m := Eval) limit depth i (.ref g args) s := by
  cases depth with
  | zero => exact absurd rfl (hended limit s)
  | succ depth =>
    have hk := (hwf.live_of_lookup hi happly).1
    have hc := hwf.live_of_lookup hi hg
    have hlength : (Expr.ref g [] :: args).length =
        (⟨Block.forwarder f xs, k⟩ : Closure).arity := by
      simp [Closure.arity, BlockOf.arity, Block.forwarder, hxs, hargs]
    have hfirst : Expr.argumentWith (m := Eval) (Expr.evalWithin limit depth) i (.ref g []) s =
        .ok (.block c) s := by
      refine Expr.argumentWith_name _ hg ?_
      rintro _ ⟨⟩
      exact hc.2
    rw [Expr.evalWithin_ref_of_block happly] at hended ⊢
    rw [Expr.evalWithin_ref_of_block hg]
    cases hrest : Expr.argumentsWith (m := Eval) (Expr.evalWithin limit depth) i args s with
    | error e s₁ =>
      have hall : Expr.argumentsWith (m := Eval) (Expr.evalWithin limit depth) i
          (.ref g [] :: args) s = .error e s₁ :=
        (Eval.bind_of_eq_ok hfirst _).trans (Eval.bind_of_eq_error hrest _)
      rw [Expr.invokeWith_of_arguments_eq_error hlength hall,
        Expr.invokeWith_of_arguments_eq_error hargs hrest]
    | ok bs s₁ =>
      have hall : Expr.argumentsWith (m := Eval) (Expr.evalWithin limit depth) i
          (.ref g [] :: args) s = .ok (.block c :: bs) s₁ :=
        (Eval.bind_of_eq_ok hfirst _).trans (Eval.bind_of_eq_ok hrest _)
      rw [Expr.invokeWith_of_arguments_eq_ok hlength hall] at hended ⊢
      rw [Expr.invokeWith_of_arguments_eq_ok hargs hrest]
      have hbslength := (Expr.length_of_argumentsWith_eq_ok hrest).trans hargs
      obtain ⟨hprinted, hbs⟩ := Expr.related_of_argumentsWith_eq_ok hwf hi hrest
      rw [← hprinted.scopes] at hwf hk hc hbs
      exact Block.inNewScope_forwarder_of_ended hwf hk hdistinct hc hxs hbslength hbs hended

/-- A root with the forwarder for two arguments, a block `twice` that calls another block on its own
result, and a block `next` that prints its argument and adds one to it. -/
def State.workshop : State :=
  (Program.freshRuns [(1, [.assign "apply" (Block.forwarder "f" ["x", "y"]),
    .assign "twice" ⟨["h", "n"], [], .ref "h" [.ref "h" [.ref "n" []]]⟩,
    .assign "next" ⟨["n"], [.print (.ref "n" [])], .binary .add (.ref "n" []) (.int 1)⟩])]).2

/-- `apply twice next (1 + 2)` is `twice next (1 + 2)`: both hand on a block, which is then called
twice. -/
theorem Expr.evalWithin_forwarder_workshop_eq :
    State.workshop.scopes.WellFormed ∧ Scope.Index.root < State.workshop.scopes.size ∧
      State.workshop.scopes.lookup .root "apply" =
        .ok (some (.block ⟨Block.forwarder "f" ["x", "y"], .root⟩)) ∧
      State.workshop.scopes.lookup .root "twice" =
        .ok (some (.block ⟨⟨["h", "n"], [], .ref "h" [.ref "h" [.ref "n" []]]⟩, .root⟩)) ∧
      Result.outcome (Expr.evalWithin (m := Eval) 6 6 .root
        (.ref "apply" [.ref "twice" [], .ref "next" [], .binary .add (.int 1) (.int 2)])
        State.workshop) = .ok (.int 5) ∧
      Expr.evalWithin (m := Eval) 6 6 .root
          (.ref "apply" [.ref "twice" [], .ref "next" [], .binary .add (.int 1) (.int 2)])
          State.workshop =
        Expr.evalWithin (m := Eval) 6 6 .root
          (.ref "twice" [.ref "next" [], .binary .add (.int 1) (.int 2)]) State.workshop := by
  have hrest : State.workshop.AtRest := Program.freshRuns_atRest _
  have hlive : Scope.Index.root < State.workshop.scopes.size := hrest.wellFormed.size_pos
  have happly : State.workshop.scopes.lookup .root "apply" =
      .ok (some (.block ⟨Block.forwarder "f" ["x", "y"], .root⟩)) := rfl
  have htwice : State.workshop.scopes.lookup .root "twice" =
      .ok (some (.block ⟨⟨["h", "n"], [], .ref "h" [.ref "h" [.ref "n" []]]⟩, .root⟩)) := rfl
  have hvalue : Result.outcome (Expr.evalWithin (m := Eval) 6 6 .root
      (.ref "apply" [.ref "twice" [], .ref "next" [], .binary .add (.int 1) (.int 2)])
      State.workshop) = .ok (.int 5) := rfl
  refine ⟨hrest.wellFormed, hlive, happly, htwice, hvalue, ?_⟩
  refine Expr.evalWithin_forwarder_eq hrest.wellFormed hlive happly htwice (by decide) rfl rfl ?_
  intro l s' hcut
  rw [hcut] at hvalue
  simp [Result.outcome] at hvalue

end Blockscript
