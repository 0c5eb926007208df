import Blockscript.Scope

/-!
# Evaluation

Expressions are evaluated in a scope. A name that stands for a block is an invocation: the block
runs in a new scope inside the one where it was defined, and that scope is dropped afterwards,
whether the block succeeded or not. Output and bindings that were made before an error are kept.

Each evaluation of an expression inside another counts as a level of nesting, and so does each
invocation, because it evaluates expressions. The evaluator recurses on the number of levels still
permitted: each function below handles one level and is given the evaluator of the next as an
argument. Within a level, statements and blocks are run by recursion on their structure.

The evaluator touches scopes and output only through the operations of `MonadScopes`. Programs run
in `Eval`, where these act on the live scopes; other monads with the same operations serve to
compare evaluators.

## Main definitions

* `EvalError` : why an evaluation fails.
* `MonadScopes` : what evaluation asks of the monad that it runs in.
* `State`, `Eval` : the live scopes with what has been printed, and computations on them.
* `Stmt.execWith`, `Block.bindWith`, `Block.runWith` : statements and blocks within one level.
* `Expr.evalWithin` : an expression with a given number of levels.
* `Program.runIn`, `Program.run` : a program against the root scope, in any such monad and in
  `Eval`.
-/

namespace Blockscript

/-- Why an evaluation fails. -/
inductive EvalError where
  /-- A name has no binding. -/
  | unbound (name : String)
  /-- A block was invoked with a wrong number of arguments. -/
  | arity (name : String) (expected got : Nat)
  /-- An operator does not take such values. -/
  | mismatch (e : TypeMismatch)
  /-- Evaluations are nested more deeply than allowed. -/
  | recursionLimit (limit : Nat)
  /-- A scope was used that is not alive. -/
  | deadScope (e : DeadScope)
deriving DecidableEq, Repr

/-- The wording of an evaluation error. -/
def EvalError.message : EvalError → String
  | .unbound name => "unbound variable `" ++ name ++ "`"
  | .arity name expected got =>
    "`" ++ name ++ "` expects " ++ Nat.repr expected ++ " argument(s), got " ++ Nat.repr got
  | .mismatch e => e.message
  | .recursionLimit limit => "recursion limit of " ++ Nat.repr limit ++ " exceeded"
  | .deadScope e => "scope " ++ Nat.repr e.id ++ " is not alive"

/-- What evaluation asks of the monad that it runs in. -/
class MonadScopes (m : Type → Type) extends Monad m where
  /-- What a name stands for in a scope. -/
  lookup (scope : Scope.Index) (name : String) : m Binding
  /-- Binds a name in a scope. -/
  bindName (scope : Scope.Index) (name : String) (b : Binding) : m Unit
  /-- Prints a text. -/
  emit (text : String) : m Unit
  /-- Runs a computation in a new scope inside `outer` that has the given bindings. -/
  inNewScope {α : Type} (outer : Scope.Index) (bindings : Bindings) (run : Scope.Index → m α) : m α
  /-- Fails. -/
  fail {α : Type} (e : EvalError) : m α

/-- What evaluation works on. -/
structure State where
  /-- The live scopes. -/
  scopes : Scopes
  /-- The texts printed so far, oldest first. -/
  output : Array String

/-- A root scope without bindings, and nothing printed. -/
def State.initial : State :=
  ⟨.initial, #[]⟩

/-- Computations on a state. An error keeps the state that was reached. -/
abbrev Eval (α : Type) := EStateM EvalError State α

/-! ### Steps on the state -/

namespace Eval

/-- What a name stands for in a scope. -/
def lookup (scope : Scope.Index) (name : String) : Eval Binding := fun s =>
  match s.scopes.lookup scope name with
  | .ok (some b) => .ok b s
  | .ok none => .error (.unbound name) s
  | .error e => .error (.deadScope e) s

/-- Binds a name in a scope. -/
def bindName (scope : Scope.Index) (name : String) (b : Binding) : Eval Unit := fun s =>
  match s.scopes.insert scope name b with
  | .ok scopes => .ok () { s with scopes }
  | .error e => .error (.deadScope e) s

/-- Prints a text. -/
def emit (text : String) : Eval Unit := fun s =>
  .ok () { s with output := s.output.push text }

/-- Runs a computation in a new scope inside `outer`, and drops that scope and all later ones
afterwards. -/
def inNewScope {α : Type} (outer : Scope.Index) (bindings : Bindings) (run : Scope.Index → Eval α) :
    Eval α := fun s =>
  let (id, scopes) := s.scopes.push outer bindings
  match run id { s with scopes } with
  | .ok a s' => .ok a { s' with scopes := s'.scopes.dropFrom id }
  | .error e s' => .error e { s' with scopes := s'.scopes.dropFrom id }

/-- Fails, with the state as it is. -/
def fail {α : Type} (e : EvalError) : Eval α := fun s =>
  .error e s

instance : MonadScopes Eval where
  lookup := lookup
  bindName := bindName
  emit := emit
  inNewScope := inNewScope
  fail := fail

end Eval

/-- The evaluator of expressions that the functions of one level are given. -/
abbrev ExprEval (m : Type → Type) := Scope.Index → Expr → m Value

variable {m : Type → Type} [MonadScopes m]

/-! ### Statements and blocks within one level -/

mutual

/-- Executes a statement in a scope. Only a bare expression has a value. -/
@[specialize]
def Stmt.execWith (eval : ExprEval m) (scope : Scope.Index) : Stmt → m (Option Value)
  | .assign name block => do
    let b ← Block.bindWith eval scope block
    MonadScopes.bindName scope name b
    return none
  | .print e => do
    let v ← eval scope e
    MonadScopes.emit v.text
    return none
  | .expr e => do
    let v ← eval scope e
    return some v

/-- What a name is bound to by a block: the block itself if it has parameters, and otherwise the
value that it has now. A body needs a scope of its own; a tail alone does not. -/
@[specialize]
def Block.bindWith (eval : ExprEval m) (scope : Scope.Index) : BlockOf Stmt → m Binding
  | ⟨[], [], tail⟩ => do
    let v ← eval scope tail
    return .value v
  | ⟨[], body, tail⟩ => do
    let v ← MonadScopes.inNewScope scope .empty fun inner => do
      Stmt.execAllWith eval inner body
      eval inner tail
    return .value v
  | block => return .block ⟨block, scope⟩

/-- Executes statements in order, for their effects. -/
@[specialize]
def Stmt.execAllWith (eval : ExprEval m) (scope : Scope.Index) : List Stmt → m Unit
  | [] => return ()
  | stmt :: rest => do
    let _ ← Stmt.execWith eval scope stmt
    Stmt.execAllWith eval scope rest

end

/-- The value of a block in a scope of its own: the body is executed, then the tail is evaluated. -/
@[specialize]
def Block.runWith (eval : ExprEval m) (scope : Scope.Index) (block : Block) : m Value := do
  Stmt.execAllWith eval scope block.body
  eval scope block.tail

/-! ### Expressions within one level -/

/-- Applies an operator. -/
@[specialize]
def Op.applyIn (m : Type → Type) [MonadScopes m] (op : Op) (lhs rhs : Value) : m Value :=
  match op.apply lhs rhs with
  | .ok v => return v
  | .error e => MonadScopes.fail (.mismatch e)

namespace Expr

/-- What a parameter is bound to by an argument: a name that stands for a block with parameters
passes that block on, and a name that stands for a value passes the value. All else is
evaluated. -/
@[specialize]
def argumentWith (eval : ExprEval m) (scope : Scope.Index) (arg : Expr) : m Binding :=
  match arg.bareName? with
  | none => do
    let v ← eval scope arg
    return .value v
  | some name => do
    match ← MonadScopes.lookup scope name with
    | .value v => return .value v
    | .block c =>
      if 0 < c.arity then return .block c
      else
        let v ← eval scope arg
        return .value v

/-- What parameters are bound to by arguments, which are evaluated from left to right. -/
@[specialize]
def argumentsWith (eval : ExprEval m) (scope : Scope.Index) : List Expr → m (List Binding)
  | [] => return []
  | arg :: rest => do
    let b ← argumentWith eval scope arg
    let bs ← argumentsWith eval scope rest
    return b :: bs

/-- Invokes a block by `name` with arguments from the scope of the caller. The number of arguments
is checked before any of them is evaluated. -/
@[specialize]
def invokeWith (eval : ExprEval m) (caller : Scope.Index) (name : String) (c : Closure)
    (args : List Expr) : m Value :=
  if args.length = c.arity then do
    let bs ← argumentsWith eval caller args
    MonadScopes.inNewScope c.scope (.ofList (c.block.params.zip bs)) fun inner =>
      Block.runWith eval inner c.block
  else MonadScopes.fail (.arity name c.arity args.length)

/-- The value of a chain of operators, from left to right. However long the chain, its operands are
all evaluated at the same level. -/
@[specialize]
def chainWith (eval : ExprEval m) (scope : Scope.Index) (e : Expr) : m Value := do
  let v ← eval scope e.spine.1
  e.spine.2.foldlM (fun acc (op, rhs) => do op.applyIn m acc (← eval scope rhs)) v

/-- The value of an expression, over the evaluator of the next level. Arguments of a name that
stands for a value are ignored. -/
@[specialize]
def levelWith (eval : ExprEval m) (scope : Scope.Index) : Expr → m Value
  | .int n => return .int n
  | .float x => return .float x
  | .str s => return .str s
  | .ref name args => do
    match ← MonadScopes.lookup scope name with
    | .value v => return v
    | .block c => invokeWith eval scope name c args
  | .binary op lhs rhs => chainWith eval scope (.binary op lhs rhs)

/-! ### The levels -/

/-- The value of an expression in a scope, with `depth` levels of nesting still permitted out of
`limit`. -/
@[specialize]
def evalWithin (limit : Nat) : (depth : Nat) → ExprEval m
  | 0 => fun _ _ => MonadScopes.fail (.recursionLimit limit)
  | depth + 1 => levelWith (evalWithin limit depth)

end Expr

namespace Program

/-- Executes the statements of a program in the root scope. The value is that of the last statement
if it is a bare expression. -/
@[specialize]
def runIn (m : Type → Type) [MonadScopes m] (limit : Nat) (program : Program) : m (Option Value) :=
  program.foldlM (fun _ stmt => Stmt.execWith (Expr.evalWithin limit limit) .root stmt) none

/-- Executes a program against the live scopes. -/
def run (limit : Nat) (program : Program) : Eval (Option Value) :=
  program.runIn Eval limit

end Program

end Blockscript
