import Blockscript.Proofs.Pauses
import Blockscript.Stmt.Parser

/-!
# Reading tokens on demand

The parsers of this library take their tokens from a stream that has been made once. A parser can
also do without: it keeps a byte offset, reads the token that stands there whenever it wants to know
it, and reads it again when it wants to know it again. Such a parser is written down here, function
by function, and it notes all the offsets at which it reads.

Three things can go wrong with it that cannot go wrong with a stream: it may read at an offset
outside the text or inside a character, it may cut a piece out of a text where there is none, and a
loop may fail to move on. They are failures of their own, apart from the errors of the text, so that
it can be said that they do not occur.

## Main definitions

* `OnDemand` : a run that notes the offsets at which it reads.
* `OnDemand.lex` : the token at an offset of a text.
* `OnDemand.expr`, `OnDemand.block`, `OnDemand.stmt` : the parsers, from an offset on.
* `OnDemand.parse` : reads a program on demand.
-/

namespace Blockscript

/-! ### Runs that note where they read -/

/-- Why a run on demand can stop. -/
inductive OnDemand.Failure where
  /-- The text is not what it should be. -/
  | refused (e : SyntaxError)
  /-- A piece of text was asked for that does not lie between two characters. -/
  | outside (offset : Nat)
  /-- A loop did not move on from this offset. -/
  | stuck (offset : Nat)
deriving DecidableEq

/-- A run that notes the offsets at which it reads. -/
structure OnDemand (α : Type) where
  /-- The offsets, in the order in which tokens were read there. -/
  offsets : List Nat
  /-- What came of the run. -/
  result : Except OnDemand.Failure α

namespace OnDemand

instance : Monad OnDemand where
  pure a := ⟨[], .ok a⟩
  bind x f :=
    match x.result with
    | .ok a => ⟨x.offsets ++ (f a).offsets, (f a).result⟩
    | .error failure => ⟨x.offsets, .error failure⟩

/-- The run that fails at once. -/
def fail {α : Type} (failure : Failure) : OnDemand α :=
  ⟨[], .error failure⟩

/-- The run that refuses the text at once. -/
def refuse {α : Type} (e : SyntaxError) : OnDemand α :=
  fail (.refused e)

/-- Goes on at `next`, which must lie further on in the text. -/
def goOn {α : Type} (text : String) (offset next : Nat)
    (run : offset < next → next ≤ Text.byteLength text.toList → OnDemand α) : OnDemand α :=
  if h : offset < next ∧ next ≤ Text.byteLength text.toList then run h.1 h.2
  else fail (.stuck offset)

/-- The text inside a quoted text, all but its first and its last byte. -/
def unquote (text : String) : OnDemand String :=
  match Text.slice? text.toList ⟨1, Text.byteLength text.toList - 1⟩ with
  | some cs => pure (String.ofList cs)
  | none => fail (.outside 1)

section

variable (text : String)

/-- Reads the token at an offset: the token, and the offset after it. -/
def lex (offset : Nat) : OnDemand (Token × Nat) where
  offsets := [offset]
  result :=
    match Text.dropBytes? offset text.toList with
    | none => .error (.outside offset)
    | some cs =>
      match (Token.read offset cs).result with
      | .ok t => .ok (t, t.span.stop)
      | .error e => .error (.refused e)

/-- Reads a token of the given kind, and otherwise refuses the text with `cause`. -/
def expect (kind : Token.Kind) (cause : String → GrammarCause) (offset : Nat) : OnDemand Nat := do
  let (t, next) ← lex text offset
  if t.kind = kind then pure next else refuse (t.reject cause)

/-! ### Expressions -/

/-- The atom that begins with `t`, which ends at `offset`. -/
def atom (inner : Nat → OnDemand (Expr × Nat)) (t : Token) (offset : Nat) :
    OnDemand (Expr × Nat) :=
  match t.kind with
  | .integer =>
    match Decimal.int? t.text.toList with
    | some n => pure (.int n, offset)
    | none => refuse (t.reject .integerOverflow)
  | .float => pure (.float (Decimal.float t.text.toList), offset)
  | .string => do
    let value ← unquote t.text
    pure (.str value, offset)
  | .openParen => do
    let (e, offset) ← inner offset
    let offset ← expect text .closeParen .unclosedParen offset
    pure (e, offset)
  | _ => refuse (t.reject .invalidExpression)

/-- The arguments from `offset` on. -/
def arguments (inner : Nat → OnDemand (Expr × Nat)) (offset : Nat) :
    OnDemand (List Expr × Nat) := do
  let (t, next) ← lex text offset
  if t.kind = .identifier then
    let (args, stop) ← goOn text offset next fun _ _ => arguments inner next
    pure (.ref t.text [] :: args, stop)
  else if t.kind.beginsExpr then
    let (arg, next) ← atom text inner t next
    let (args, stop) ← goOn text offset next fun _ _ => arguments inner next
    pure (arg :: args, stop)
  else pure ([], offset)
termination_by Text.byteLength text.toList - offset

/-- The operand that begins with `t`, which ends at `offset`. -/
def operand (inner : Nat → OnDemand (Expr × Nat)) (t : Token) (offset : Nat) :
    OnDemand (Expr × Nat) :=
  if t.kind = .identifier then do
    let (args, offset) ← arguments text inner offset
    pure (.ref t.text args, offset)
  else atom text inner t offset

/-- The operators from `offset` on that bind `lhs` more tightly than `power`. -/
def chain (inner : Int → Nat → OnDemand (Expr × Nat)) (power : Int) (lhs : Expr) (offset : Nat) :
    OnDemand (Expr × Nat) := do
  let (t, next) ← lex text offset
  if t.kind.leftPower ≤ power then pure (lhs, offset)
  else match t.kind.op? with
    | none => refuse (t.reject .unknownOperator)
    | some op =>
      let (rhs, next) ← inner t.kind.leftPower next
      goOn text offset next fun _ _ => chain inner power (.binary op lhs rhs) next
termination_by Text.byteLength text.toList - offset

/-- The expression at `offset`, with `depth` levels of nesting still permitted out of `limit`. -/
def expr (limit : Nat) : (depth : Nat) → (power : Int) → (offset : Nat) → OnDemand (Expr × Nat)
  | 0, _, offset => refuse ⟨.grammar (.tooDeep limit), ⟨offset, offset⟩⟩
  | depth + 1, power, offset => do
    let (t, next) ← lex text offset
    let (lhs, next) ← operand text (expr limit depth 0) t next
    chain text (expr limit depth) power lhs next

/-! ### Statements -/

/-- The parameters from `offset` on, after those of `params`. -/
def parameters (params : List String) (offset : Nat) : OnDemand (List String × Nat) := do
  let (t, next) ← lex text offset
  if t.kind = .identifier then
    if t.text ∈ params then refuse (t.reject .duplicateParameter)
    else goOn text offset next fun _ _ => parameters (params ++ [t.text]) next
  else if t.kind = .equals then pure (params, next)
  else refuse (t.reject .invalidAssignment)
termination_by Text.byteLength text.toList - offset

/-- What follows a keyword that ends at `offset`. -/
def keywordRest (expr : Nat → OnDemand (Expr × Nat))
    (block : List String → Nat → OnDemand (Block × Nat)) (word : Keyword) (offset : Nat) :
    OnDemand (Stmt × Nat) :=
  match word with
  | .printWord => do
    let (e, offset) ← expr offset
    let offset ← expect text .semicolon (.delimiterRequired .printWord) offset
    pure (.print e, offset)
  | .letWord => do
    let (t, offset) ← lex text offset
    if t.kind = .identifier then
      let (params, offset) ← parameters text [] offset
      let (b, offset) ← block params offset
      let offset ← expect text .semicolon (.delimiterRequired .letWord) offset
      pure (.assign t.text b, offset)
    else refuse (t.reject .invalidAssignment)

/-- The body and the tail of a block from `offset` on. -/
def parts (expr : Nat → OnDemand (Expr × Nat))
    (block : List String → Nat → OnDemand (Block × Nat)) (offset : Nat) :
    OnDemand ((List Stmt × Expr) × Nat) := do
  let (t, next) ← lex text offset
  match t.kind with
  | .keyword word =>
    let (stmt, next) ← keywordRest text expr block word next
    let ((body, tail), stop) ← goOn text offset next fun _ _ => parts expr block next
    pure ((stmt :: body, tail), stop)
  | kind =>
    if kind.beginsExpr then
      let (e, next) ← expr offset
      let (follow, _) ← lex text next
      if follow.kind.beginsStmt then
        let ((body, tail), stop) ← goOn text offset next fun _ _ => parts expr block next
        pure ((.expr e :: body, tail), stop)
      else pure (([], e), next)
    else refuse (t.reject .missingTail)
termination_by Text.byteLength text.toList - offset

/-- The block at `offset`, with `depth` levels of nesting still permitted out of `limit`. -/
def block (limit : Nat) :
    (depth : Nat) → (params : List String) → (offset : Nat) → OnDemand (Block × Nat)
  | 0, _, offset => refuse ⟨.grammar (.tooDeep limit), ⟨offset, offset⟩⟩
  | depth + 1, params, offset => do
    let ((body, tail), offset) ← parts text (expr text limit depth 0) (block limit depth) offset
    pure (⟨params, body, tail⟩, offset)

/-- The statement at `offset`. -/
def stmt (limit : Nat) (offset : Nat) : OnDemand (Stmt × Nat) := do
  let (t, next) ← lex text offset
  match t.kind with
  | .keyword word => keywordRest text (expr text limit limit 0) (block text limit limit) word next
  | kind =>
    if kind.beginsExpr then
      let (e, stop) ← expr text limit limit 0 offset
      let (follow, next) ← lex text stop
      if follow.kind = .semicolon then pure (.expr e, next) else pure (.expr e, stop)
    else refuse (t.reject .invalidStatement)

/-- All the statements from `offset` on. -/
def statements (limit : Nat) (offset : Nat) : OnDemand Program := do
  let (t, _) ← lex text offset
  if t.kind = .eof then pure []
  else
    let (first, next) ← stmt text limit offset
    let rest ← goOn text offset next fun _ _ => statements limit next
    pure (first :: rest)
termination_by Text.byteLength text.toList - offset

/-- Reads a program on demand. -/
def parse (limit : Nat) : OnDemand Program :=
  statements text limit 0

end

end OnDemand

end Blockscript
