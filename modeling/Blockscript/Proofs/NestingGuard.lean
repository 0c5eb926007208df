import Blockscript.Proofs.ExprParsing
import Blockscript.Proofs.Frame
import Blockscript.Stmt.Parser

/-!
# The parser's limit covers the evaluator's

The parser and the evaluator share one limit on nesting, but they do not count the same things. The
parser counts parentheses, right operands and blocks. The evaluator counts evaluations that have
begun and not yet ended: an operand of a chain is one level below the chain, however many
parentheses the chain was made from, and a block that is evaluated where it stands adds no level.

For programs without blocks that take parameters the first count is never less than the second. So
a text that was accepted under a limit does not run into the same limit when it is evaluated.

## The number that both counts are compared with

`Expr.levels` is the nesting that an evaluation takes. A left operand belongs to the same chain, so
it needs as much as the whole; only a right operand is a level below. That is the way in which the
parser goes down, too: it reads a right operand one level deeper, while a left operand is read
before it is known that an operator follows.

## Main definitions

* `Expr.levels`, `Stmt.levels`, `Block.levels` : the nesting that an evaluation takes.
* `Stmt.blockFree`, `Block.blockFree`, `Program.blockFree` : no block takes parameters.
* `Scopes.HoldsValues` : no name stands for a block.
* `Result.Fits` : an outcome other than too deep a nesting.

## Main results

* `Expr.levels_le_of_run`, `Block.levels_le_of_run`, `Program.levels_le_of_statements` : what is
  read within a limit takes no more levels.
* `Expr.suffices_evalWithin` : as many levels as `Expr.levels` says are enough.
* `Program.run_ne_recursionLimit_of_parse` : the headline, for source texts.
-/

namespace Blockscript

/-! ### The nesting that an evaluation takes -/

/-- The nesting that the evaluation of an expression takes if no name stands for a block. The
arguments of a name are then ignored. -/
def Expr.levels : Expr → Nat
  | .binary _ lhs rhs => max lhs.levels (rhs.levels + 1)
  | _ => 1

mutual

/-- The nesting that the execution of a statement takes. -/
def Stmt.levels : Stmt → Nat
  | .assign _ block => Block.levels block
  | .print e => e.levels
  | .expr e => e.levels

/-- The nesting that the evaluation of a block takes where it stands. -/
def Block.levels : BlockOf Stmt → Nat
  | ⟨_, body, tail⟩ => max (Stmt.maxLevels body) tail.levels

/-- The greatest nesting that one of several statements takes. -/
def Stmt.maxLevels : List Stmt → Nat
  | [] => 0
  | stmt :: rest => max (Stmt.levels stmt) (Stmt.maxLevels rest)

end

mutual

/-- No block in the statement takes parameters, at any depth. -/
def Stmt.blockFree : Stmt → Bool
  | .assign _ block => Block.blockFree block
  | .print _ => true
  | .expr _ => true

/-- The block takes no parameters, and neither does any block in it. -/
def Block.blockFree : BlockOf Stmt → Bool
  | ⟨params, body, _⟩ => params.isEmpty && Stmt.allBlockFree body

/-- No block in any of the statements takes parameters. -/
def Stmt.allBlockFree : List Stmt → Bool
  | [] => true
  | stmt :: rest => Stmt.blockFree stmt && Stmt.allBlockFree rest

end

/-- No block of the program takes parameters, at any depth. -/
def Program.blockFree (program : Program) : Bool :=
  Stmt.allBlockFree program

namespace Expr

theorem levels_pos (e : Expr) : 1 ≤ e.levels := by
  cases e with
  | binary op lhs rhs => rw [levels]; omega
  | _ => exact Nat.le_refl 1

theorem levels_of_ne_binary {e : Expr} (h : ∀ op lhs rhs, e ≠ .binary op lhs rhs) :
    e.levels = 1 := by
  cases e with
  | binary op lhs rhs => exact absurd rfl (h op lhs rhs)
  | _ => rfl

/-- The operands of a chain are a level below it. The first of them joins nothing, and there is at
least one more, so it is a level below as well. -/
theorem levels_spine {n : Nat} {op : Op} {lhs rhs : Expr}
    (h : (Expr.binary op lhs rhs).levels ≤ n + 1) :
    (Expr.binary op lhs rhs).spine.1.levels ≤ n ∧
      ∀ step ∈ (Expr.binary op lhs rhs).spine.2, step.2.levels ≤ n := by
  have hbinary : ∀ op lhs rhs, (Expr.binary op lhs rhs).levels ≤ n + 1 →
      lhs.levels ≤ n + 1 ∧ rhs.levels ≤ n := by
    intro op lhs rhs h
    rw [levels] at h
    omega
  obtain ⟨-, hfirst, hsteps⟩ :=
    forall_spine (P := fun e => e.levels ≤ n + 1) (Q := fun e => e.levels ≤ n) hbinary h
  have hrhs := (hbinary op lhs rhs h).2
  refine ⟨?_, hsteps⟩
  rw [levels_of_ne_binary hfirst]
  exact Nat.le_trans rhs.levels_pos hrhs

end Expr

/-! ### What is read within a limit -/

namespace Expr

variable {inner : Int → Parser Expr} {power : Int} {n : Nat} {t : Token} {s r : Stream}
  {e lhs : Expr}

/-- What the parser reads takes at most `n` levels. -/
def ReadsWithin (p : Parser Expr) (n : Nat) : Prop :=
  ∀ {s r : Stream} {e : Expr}, p.run s = .ok (e, r) → e.levels ≤ n

theorem levels_le_of_atom (hinner : ReadsWithin (inner 0) n) (h : atom (inner 0) t s = .ok (e, r)) :
    e.levels ≤ n + 1 := by
  have hliteral (e' : Expr) (he' : e'.levels = 1) : e'.levels ≤ n + 1 := by omega
  rw [atom] at h
  split at h
  · split at h <;> cases h
    exact hliteral _ rfl
  · cases h
    exact hliteral _ rfl
  · cases h
    exact hliteral _ rfl
  · obtain ⟨⟨e', s'⟩, hrun, h⟩ := bind_eq_ok.mp h
    obtain ⟨r', -, h⟩ := bind_eq_ok.mp h
    cases h
    exact Nat.le_succ_of_le (hinner hrun)
  · cases h

theorem levels_le_of_operand (hinner : ReadsWithin (inner 0) n)
    (h : operand (inner 0) t s = .ok (e, r)) : e.levels ≤ n + 1 := by
  rw [operand] at h
  split at h
  · obtain ⟨⟨args, s'⟩, -, h⟩ := bind_eq_ok.mp h
    cases h
    exact Nat.le_add_left 1 n
  · exact levels_le_of_atom hinner h

/-- A right operand was read a level deeper, so joining it does not go beyond the level of the
chain. -/
theorem levels_le_of_chain (hinner : ∀ power, ReadsWithin (inner power) n)
    (hlhs : lhs.levels ≤ n + 1) (h : chain inner power lhs s = .ok (e, r)) : e.levels ≤ n + 1 := by
  fun_induction chain inner power lhs s with
  | case1 => cases h
  | case2 =>
    cases h
    exact hlhs
  | case3 => cases h
  | case4 => cases h
  | case5 lhs s t r' hn hp op hop rhs r'' hr hle hlt ih =>
    refine ih ?_ h
    have hrhs := hinner _ hr
    rw [levels]
    omega

/-- **An expression that is read within a limit takes no more levels.** -/
theorem levels_le_of_run (limit depth : Nat) (power : Int) :
    ReadsWithin (parserWithin limit depth power) depth := by
  induction depth generalizing power with
  | zero => intro s r e h; cases h
  | succ depth ih =>
    intro s r e h
    obtain ⟨⟨t, s₁⟩, -, h⟩ := bind_eq_ok.mp h
    obtain ⟨⟨lhs, s₂⟩, ho, h⟩ := bind_eq_ok.mp h
    exact levels_le_of_chain ih (levels_le_of_operand (ih 0) ho) h

end Expr

section

variable {expr : Parser Expr} {block : List String → Parser Block} {n : Nat} {s r : Stream}
  {stmt : Stmt}

/-- What the parser reads takes at most `n` levels where it stands. -/
def Block.ReadsWithin (block : List String → Parser Block) (n : Nat) : Prop :=
  ∀ {params : List String} {s r : Stream} {b : Block}, (block params).run s = .ok (b, r) →
    Block.levels b ≤ n

theorem Stmt.levels_le_of_keywordRest (hexpr : Expr.ReadsWithin expr n)
    (hblock : Block.ReadsWithin block n) {word : Keyword}
    (h : keywordRest expr block word s = .ok (stmt, r)) : stmt.levels ≤ n := by
  cases word with
  | printWord =>
    obtain ⟨⟨e, s₁⟩, hrun, h⟩ := bind_eq_ok.mp h
    obtain ⟨s₂, -, h⟩ := bind_eq_ok.mp h
    cases h
    exact hexpr hrun
  | letWord =>
    obtain ⟨⟨name, s₁⟩, -, h⟩ := bind_eq_ok.mp h
    dsimp only at h
    split at h
    · obtain ⟨⟨params, s₂⟩, -, h⟩ := bind_eq_ok.mp h
      obtain ⟨⟨b, s₃⟩, hrun, h⟩ := bind_eq_ok.mp h
      obtain ⟨s₄, -, h⟩ := bind_eq_ok.mp h
      cases h
      exact hblock hrun
    · cases h

theorem Block.levels_le_of_parts (hexpr : Expr.ReadsWithin expr n)
    (hblock : Block.ReadsWithin block n) {body : List Stmt} {tail : Expr}
    (h : parts expr block s = .ok ((body, tail), r)) :
    Stmt.maxLevels body ≤ n ∧ tail.levels ≤ n := by
  fun_induction parts expr block s generalizing body tail r with
  | case1 => cases h
  | case2 => cases h
  | case3 => cases h
  | case4 s t r' hn word hk stmt r'' hs hle hlt body tail s' hp ih =>
    cases h
    obtain ⟨hbody, htail⟩ := ih hp
    exact ⟨Nat.max_le.mpr ⟨Stmt.levels_le_of_keywordRest hexpr hblock hs, hbody⟩, htail⟩
  | case5 => cases h
  | case6 => cases h
  | case7 => cases h
  | case8 s t r' hn e s' he hlt follow r'' hf hstmt body tail s'' hp hk hb ih =>
    cases h
    obtain ⟨hbody, htail⟩ := ih hp
    exact ⟨Nat.max_le.mpr ⟨hexpr he, hbody⟩, htail⟩
  | case9 s t r' hn e s' he hlt follow r'' hf hstmt hk hb =>
    cases h
    exact ⟨Nat.zero_le n, hexpr he⟩
  | case10 => cases h

/-- **A block that is read within a limit takes no more levels.** In fact it takes one less, since
the parser counts the block itself. -/
theorem Block.levels_le_of_run (limit depth : Nat) :
    Block.ReadsWithin (parserWithin limit depth) depth := by
  induction depth with
  | zero => intro params s r b h; cases h
  | succ depth ih =>
    intro params s r b h
    obtain ⟨⟨⟨body, tail⟩, s'⟩, hp, h⟩ := bind_eq_ok.mp h
    cases h
    obtain ⟨hbody, htail⟩ := levels_le_of_parts (Expr.levels_le_of_run limit depth 0) ih hp
    exact Nat.le_succ_of_le (Nat.max_le.mpr ⟨hbody, htail⟩)

theorem Stmt.levels_le_of_run {limit : Nat} (h : (parserWithin limit).run s = .ok (stmt, r)) :
    stmt.levels ≤ limit := by
  obtain ⟨⟨t, s₁⟩, -, h⟩ := bind_eq_ok.mp h
  dsimp only at h
  split at h
  · exact levels_le_of_keywordRest (Expr.levels_le_of_run limit limit 0)
      (Block.levels_le_of_run limit limit) h
  · split at h
    · obtain ⟨⟨e, s₂⟩, hrun, h⟩ := bind_eq_ok.mp h
      obtain ⟨⟨follow, s₃⟩, -, h⟩ := bind_eq_ok.mp h
      dsimp only at h
      split at h <;> cases h <;> exact Expr.levels_le_of_run limit limit 0 hrun
    · cases h

/-- A program that is read within a limit takes no more levels. -/
theorem Program.levels_le_of_statements {limit : Nat} {program : Program}
    (h : statements (Stmt.parserWithin limit) s = .ok program) :
    Stmt.maxLevels program ≤ limit := by
  fun_induction statements (Stmt.parserWithin limit) s generalizing program with
  | case1 => cases h
  | case2 =>
    cases h
    exact Nat.zero_le limit
  | case3 => cases h
  | case4 => cases h
  | case5 s t r hn ht first s' hrun hlt rest hstmts ih =>
    cases h
    exact Nat.max_le.mpr ⟨Stmt.levels_le_of_run hrun, ih hstmts⟩

end

/-! ### Arenas in which no name stands for a block -/

/-- No name stands for a block in any scope. -/
def Scopes.HoldsValues (a : Scopes) : Prop :=
  ∀ (i : Nat) (f : Scope), a.frames[i]? = some f → ∀ name c,
    f.bindings.find? name ≠ some (.block c)

namespace Scopes

variable {a a' : Scopes}

theorem HoldsValues.lookup_ne (h : a.HoldsValues) (i : Scope.Index) (name : String) (c : Closure) :
    a.lookup i name ≠ .ok (some (.block c)) := by
  rw [lookup]
  generalize a.size + 1 = steps
  induction steps generalizing i with
  | zero => simp [lookupWithin]
  | succ steps ih =>
    rw [lookupWithin]
    split
    · simp
    · next f hf =>
      split
      · next b hb =>
        intro heq
        exact h i f hf name c (hb.trans (Except.ok.inj heq))
      · exact ih _
      · simp

theorem HoldsValues.push (h : a.HoldsValues) (outer : Scope.Index) :
    (a.push outer .empty).2.HoldsValues := by
  intro i f hf name c
  rw [getElem?_push] at hf
  split at hf
  · cases hf
    simp
  · exact h i f hf name c

theorem HoldsValues.dropFrom (h : a.HoldsValues) (id : Scope.Index) :
    (a.dropFrom id).HoldsValues := by
  intro i f hf name c
  rw [getElem?_dropFrom] at hf
  split at hf
  · exact h i f hf name c
  · cases hf

theorem HoldsValues.insert (h : a.HoldsValues) {id : Scope.Index} {name : String} {v : Value}
    (hinsert : a.insert id name (.value v) = .ok a') : a'.HoldsValues := by
  intro i f hf other c
  rw [getElem?_of_insert hinsert] at hf
  split at hf
  · obtain ⟨g, hg, rfl⟩ := Option.map_eq_some_iff.mp hf
    rw [Bindings.find?_insert]
    split
    · simp
    · exact h id g hg other c
  · exact h i f hf other c

/-- Of an arena with nothing but a root it is enough to know the root. -/
theorem holdsValues_of_root (hsize : a.size = 1) (hwf : a.WellFormed)
    (h : ∀ name c, a.lookup .root name ≠ .ok (some (.block c))) : a.HoldsValues := by
  intro i f hf name c hc
  have hi := lt_size hf
  obtain rfl : i = Scope.Index.root := by
    rw [hsize] at hi
    exact Nat.lt_one_iff.mp hi
  refine h name c ?_
  rw [hwf.lookup_eq hf, hc]

end Scopes

/-! ### Enough levels -/

/-- The outcome is not that evaluations were nested too deeply; and if it is a value, then it and
the arena are as `Q` says. -/
def Result.Fits {α : Type} (Q : α → Scopes → Prop) : Result State α → Prop
  | .ok a s => Q a s.scopes
  | .error e _ => ∀ limit, e ≠ .recursionLimit limit

section

open Result

variable {α β : Type} {P : α → Scopes → Prop} {Q : β → Scopes → Prop} {s : State}
  {i : Scope.Index}

theorem Result.Fits.bind {x : Eval α} {f : α → Eval β} (hx : Fits P (x s))
    (hf : ∀ a s', P a s'.scopes → Fits Q (f a s')) : Fits Q ((x >>= f) s) := by
  simp only [Bind.bind, EStateM.bind]
  generalize x s = r at hx ⊢
  cases r with
  | ok a s' => exact hf a s' hx
  | error e s' => exact hx

/-- In such an arena a name stands for a value, if it stands for anything. -/
theorem Scopes.HoldsValues.fits_lookup (h : s.scopes.HoldsValues) (name : String) :
    Fits (fun b a => a.HoldsValues ∧ ∃ v, b = .value v) (Eval.lookup i name s) := by
  have hne := h.lookup_ne i name
  rw [Eval.lookup]
  split
  · next b hb =>
    cases b with
    | value v => exact ⟨h, v, rfl⟩
    | block c => exact absurd hb (hne c)
  · simp [Fits]
  · simp [Fits]

theorem Scopes.HoldsValues.fits_bindName (h : s.scopes.HoldsValues) (name : String) (v : Value) :
    Fits (fun _ a => a.HoldsValues) (Eval.bindName i name (.value v) s) := by
  rw [Eval.bindName]
  split
  · next hinsert => exact h.insert hinsert
  · simp [Fits]

theorem Result.fits_inNewScope {outer : Scope.Index} {run : Scope.Index → Eval α}
    (hs : s.scopes.HoldsValues)
    (h : ∀ i s', s'.scopes.HoldsValues → Fits (fun _ a => a.HoldsValues) (run i s')) :
    Fits (fun _ a => a.HoldsValues) (Eval.inNewScope outer .empty run s) := by
  have hinner := h s.scopes.size { s with scopes := (s.scopes.push outer .empty).2 }
    (hs.push outer)
  simp only [Eval.inNewScope, Scopes.push_fst]
  generalize run _ _ = r at hinner ⊢
  cases r with
  | ok a s' => exact hinner.dropFrom s.scopes.size
  | error e s' => exact hinner

/-- The evaluator gets by on its levels with every expression that takes at most `n` of them. -/
def ExprEval.Suffices (eval : ExprEval Eval) (n : Nat) : Prop :=
  ∀ {s : State} {i : Scope.Index} {e : Expr}, s.scopes.HoldsValues → e.levels ≤ n →
    Fits (fun _ a => a.HoldsValues) (eval i e s)

variable {eval : ExprEval Eval} {n : Nat}

namespace Expr

theorem fits_chainWith (h : ExprEval.Suffices eval n) (hs : s.scopes.HoldsValues) {op : Op}
    {lhs rhs : Expr} (hlevels : (Expr.binary op lhs rhs).levels ≤ n + 1) :
    Fits (fun _ a => a.HoldsValues) (chainWith eval i (.binary op lhs rhs) s) := by
  obtain ⟨hfirst, hsteps⟩ := levels_spine hlevels
  refine (h hs hfirst).bind fun v s₁ hs₁ => ?_
  generalize (Expr.binary op lhs rhs).spine.2 = steps at hsteps ⊢
  induction steps generalizing v s₁ with
  | nil => exact hs₁
  | cons step steps ih =>
    obtain ⟨hstep, hsteps⟩ := List.forall_mem_cons.mp hsteps
    simp only [List.foldlM_cons]
    refine Fits.bind (P := fun _ a => a.HoldsValues) ?_ fun acc s₂ hs₂ => ih acc s₂ hs₂ hsteps
    refine (h hs₁ hstep).bind fun rhs s₂ hs₂ => ?_
    rw [Op.applyIn]
    cases step.1.apply v rhs with
    | ok v' => exact hs₂
    | error e => exact fun limit hlimit => by simp at hlimit

/-- **One level.** A name stands for a value, so only a chain goes a level down. -/
theorem suffices_level (h : ExprEval.Suffices eval n) :
    ExprEval.Suffices (levelWith eval) (n + 1) := by
  intro s i e hs hlevels
  cases e with
  | int n => exact hs
  | float x => exact hs
  | str t => exact hs
  | ref name args =>
    refine (hs.fits_lookup name).bind fun b s₁ hb => ?_
    obtain ⟨hs₁, v, rfl⟩ := hb
    exact hs₁
  | binary op lhs rhs =>
    show Fits _ (chainWith eval i (.binary op lhs rhs) s)
    exact fits_chainWith h hs hlevels

/-- **As many levels as an expression takes are enough.** -/
theorem suffices_evalWithin (limit depth : Nat) :
    ExprEval.Suffices (evalWithin limit depth) depth := by
  induction depth with
  | zero =>
    intro s i e hs hlevels
    have := e.levels_pos
    omega
  | succ depth ih => exact suffices_level ih

end Expr

mutual

theorem Stmt.fits_execWith (h : ExprEval.Suffices eval n) {s : State} {i : Scope.Index}
    (hs : s.scopes.HoldsValues) (stmt : Stmt) (hfree : Stmt.blockFree stmt = true)
    (hlevels : stmt.levels ≤ n) :
    Fits (fun _ a => a.HoldsValues) (Stmt.execWith eval i stmt s) := by
  cases stmt with
  | assign name block =>
    rw [Stmt.execWith]
    refine (Block.fits_bindWith h hs block hfree hlevels).bind fun b s₁ hb => ?_
    obtain ⟨hs₁, v, rfl⟩ := hb
    exact (hs₁.fits_bindName name v).bind fun _ s₂ hs₂ => hs₂
  | print e =>
    rw [Stmt.execWith]
    exact (h hs hlevels).bind fun v s₁ hs₁ => hs₁
  | expr e =>
    rw [Stmt.execWith]
    exact (h hs hlevels).bind fun v s₁ hs₁ => hs₁

/-- A block without parameters is evaluated where it stands, and becomes a value. -/
theorem Block.fits_bindWith (h : ExprEval.Suffices eval n) {s : State} {i : Scope.Index}
    (hs : s.scopes.HoldsValues) (block : BlockOf Stmt) (hfree : Block.blockFree block = true)
    (hlevels : Block.levels block ≤ n) :
    Fits (fun b a => a.HoldsValues ∧ ∃ v, b = .value v) (Block.bindWith eval i block s) := by
  match block with
  | ⟨[], [], tail⟩ =>
    rw [Block.levels, Nat.max_le] at hlevels
    rw [Block.bindWith]
    exact (h hs hlevels.2).bind fun v s₁ hs₁ => ⟨hs₁, v, rfl⟩
  | ⟨[], stmt :: body, tail⟩ =>
    rw [Block.levels, Nat.max_le] at hlevels
    rw [Block.blockFree, Bool.and_eq_true] at hfree
    simp only [Block.bindWith]
    refine (fits_inNewScope hs fun k s' hs' => ?_).bind fun v s₁ hs₁ => ⟨hs₁, v, rfl⟩
    exact (Stmt.fits_execAllWith h hs' (stmt :: body) hfree.2 hlevels.1).bind
      fun _ s₁ hs₁ => h hs₁ hlevels.2
  | ⟨param :: params, body, tail⟩ => simp [Block.blockFree] at hfree

theorem Stmt.fits_execAllWith (h : ExprEval.Suffices eval n) {s : State} {i : Scope.Index}
    (hs : s.scopes.HoldsValues) (stmts : List Stmt) (hfree : Stmt.allBlockFree stmts = true)
    (hlevels : Stmt.maxLevels stmts ≤ n) :
    Fits (fun _ a => a.HoldsValues) (Stmt.execAllWith eval i stmts s) := by
  cases stmts with
  | nil =>
    rw [Stmt.execAllWith]
    exact hs
  | cons stmt rest =>
    rw [Stmt.allBlockFree, Bool.and_eq_true] at hfree
    rw [Stmt.maxLevels, Nat.max_le] at hlevels
    rw [Stmt.execAllWith]
    exact (Stmt.fits_execWith h hs stmt hfree.1 hlevels.1).bind fun _ s₁ hs₁ =>
      Stmt.fits_execAllWith h hs₁ rest hfree.2 hlevels.2

end

end

/-! ### Whole programs -/

namespace Program

/-- A program whose statements take no more levels than are permitted. -/
theorem fits_run {limit : Nat} {s : State} (hs : s.scopes.HoldsValues) {program : Program}
    (hfree : program.blockFree = true) (hlevels : Stmt.maxLevels program ≤ limit) :
    Result.Fits (fun _ a => a.HoldsValues) (program.run limit s) := by
  rw [run, runIn]
  generalize (none : Option Value) = last
  induction program generalizing s last with
  | nil => exact hs
  | cons stmt rest ih =>
    rw [blockFree, Stmt.allBlockFree, Bool.and_eq_true] at hfree
    rw [Stmt.maxLevels, Nat.max_le] at hlevels
    rw [List.foldlM_cons]
    refine (Stmt.fits_execWith (Expr.suffices_evalWithin limit limit) hs stmt hfree.1
      hlevels.1).bind fun last s₁ hs₁ => ?_
    exact ih hs₁ hfree.2 hlevels.2 last

/-- **The parser's limit covers the evaluator's.** A text that is read within a limit, and in which
no block takes parameters, does not run into the same limit when it is evaluated: not in any state
between two runs in which no name of the root stands for a block. -/
theorem run_ne_recursionLimit_of_parse {text : String} {limit : Nat} {program : Program}
    (hparse : parse text limit = .ok program) (hfree : program.blockFree = true) {s : State}
    (hs : s.AtRest) (hroot : ∀ name c, s.scopes.lookup .root name ≠ .ok (some (.block c)))
    (l : Nat) (s' : State) : program.run limit s ≠ .error (.recursionLimit l) s' := by
  intro hrun
  have hvalues := Scopes.holdsValues_of_root hs.size hs.wellFormed hroot
  have hfits := fits_run hvalues hfree (levels_le_of_statements hparse)
  rw [hrun] at hfits
  exact hfits l rfl

/-- A text that needs three levels both to be read and to be evaluated, next to a block that is
evaluated where it stands. -/
def tightSource : String :=
  "let y = 1 + x; print x + y * 3;"

/-- The program of `tightSource`. -/
def tightProgram : Program :=
  [.assign "y" ⟨[], [], .binary .add (.int 1) (.ref "x" [])⟩,
    .print (.binary .add (.ref "x" []) (.binary .mul (.ref "y" []) (.int 3)))]

/-- The state after `x` was bound to 7. -/
def sevenBound : State :=
  (freshRuns [(1, [.assign "x" ⟨[], [], .int 7⟩])]).2

theorem sevenBound_holdsValues : sevenBound.scopes.HoldsValues := by
  have hinitial : State.initial.scopes.HoldsValues := fun i f hf name c hc => by
    obtain ⟨rfl, rfl⟩ := Scopes.eq_of_getElem?_initial hf
    simp at hc
  exact @fits_run 1 _ hinitial [.assign "x" ⟨[], [], .int 7⟩] rfl (by decide)

/-- With three levels the text is read, and evaluated to its end. With two it is refused, and its
program would run into the limit. -/
theorem run_tightProgram_ne_recursionLimit :
    parse tightSource 3 = .ok tightProgram ∧ tightProgram.blockFree = true ∧
      sevenBound.AtRest ∧
      (∀ name c, sevenBound.scopes.lookup .root name ≠ .ok (some (.block c))) ∧
      (∀ l s', tightProgram.run 3 sevenBound ≠ .error (.recursionLimit l) s') ∧
      (parse tightSource 2).map blockFree = .error ⟨.grammar (.tooDeep 2), ⟨11, 11⟩⟩ ∧
      Result.outcome (tightProgram.run 2 sevenBound) = .error (.recursionLimit 2) := by
  have hparse : parse tightSource 3 = .ok tightProgram := by with_unfolding_all rfl
  have hroot := sevenBound_holdsValues.lookup_ne .root
  refine ⟨hparse, rfl, freshRuns_atRest _, hroot, ?_, by decide +kernel, by decide +kernel⟩
  exact run_ne_recursionLimit_of_parse hparse rfl (freshRuns_atRest _) hroot

end Program

end Blockscript
