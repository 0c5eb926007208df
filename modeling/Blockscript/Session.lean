import Blockscript.Evaluation
import Blockscript.Stmt.Parser

/-!
# Sessions

A session runs one source text after another against the same root scope. Nothing is evaluated if a
text is not a program; if an evaluation fails, what was printed and bound before the failure stays.

## Main definitions

* `Failure` : a syntax error or an evaluation error.
* `Session`, `Session.run` : one source text in a session.
* `Session.interpret` : everything that a single source text prints.
-/

namespace Blockscript

/-- Why a source text could not be run to its end. -/
inductive Failure where
  | malformed (e : SyntaxError)
  | failed (e : EvalError)
deriving DecidableEq, Repr

namespace Failure

/-- The wording of a failure. -/
def message : Failure → String
  | .malformed e => e.message
  | .failed e => e.message

/-- The bytes of the source text that are to blame, if the text is not a program. -/
def span? : Failure → Option Span
  | .malformed e => some e.span
  | .failed _ => none

/-- The stage at which a source text fails: reading its tokens, its grammar, or its evaluation. -/
def stage : Failure → String
  | .malformed ⟨.lexical _, _⟩ => "lexer"
  | .malformed ⟨.grammar _, _⟩ => "parse"
  | .failed _ => "interpreter"

end Failure

/-- A session: the limit on nesting that source texts and evaluations share, and the state between
two texts. -/
structure Session where
  /-- The permitted nesting. -/
  limit : Nat
  /-- The scopes and the output. -/
  state : State

namespace Session

/-- A session in which nothing has been run. -/
def initial (limit : Nat) : Session :=
  ⟨limit, .initial⟩

/-- Runs a program. -/
def exec (session : Session) (program : Program) : Except Failure (Option Value) × Session :=
  match program.run session.limit session.state with
  | .ok value state => (.ok value, { session with state })
  | .error e state => (.error (.failed e), { session with state })

/-- Reads a source text as a program and runs it. -/
def run (session : Session) (source : String) : Except Failure (Option Value) × Session :=
  match Program.parse source session.limit with
  | .error e => (.error (.malformed e), session)
  | .ok program => session.exec program

/-- Everything that a source text prints when it is run on its own, if it runs to its end. -/
def interpret (source : String) : Except Failure (Array String) :=
  let (result, session) := (initial Program.defaultLimit).run source
  result.map fun _ => session.state.output

end Session

end Blockscript
