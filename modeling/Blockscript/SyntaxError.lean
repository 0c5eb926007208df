import Blockscript.Text.Quoted
import Blockscript.Token

/-!
# Syntax errors

A source text can fail at a character that belongs to no token, or at a token that the grammar
does not allow where it stands. Either way the error is a cause together with the bytes that it
concerns; the wording is a function of the cause.

## Main definitions

* `LexicalCause`, `GrammarCause` : the two families of causes, each with its `message`.
* `SyntaxError` : a cause and its span.
-/

namespace Blockscript

/-- Why no token could be read. -/
inductive LexicalCause where
  /-- No token begins with this character. -/
  | unrecognizedChar (c : Char)
  /-- A number runs into a letter, a digit, an underscore or a point. -/
  | malformedNumber (text : String)
  /-- A word runs into a character that can neither continue nor follow it. -/
  | malformedIdentifier (text : String)
  /-- A quote that is never closed. -/
  | unterminatedString
deriving DecidableEq, Repr

/-- The wording of a lexical error. -/
def LexicalCause.message : LexicalCause → String
  | .unrecognizedChar c => "unrecognized character " ++ Text.quotedChar c
  | .malformedNumber text => "malformed number literal `" ++ text ++ "`"
  | .malformedIdentifier text => "malformed identifier `" ++ text ++ "`"
  | .unterminatedString => "unterminated string literal"

/-- Why a token is not allowed where it stands. `found` is the text of that token. -/
inductive GrammarCause where
  /-- A parenthesis is not closed after the expression in it. -/
  | unclosedParen (found : String)
  /-- No expression begins here. -/
  | invalidExpression (found : String)
  /-- An operator was due. -/
  | unknownOperator (found : String)
  /-- No statement begins here. -/
  | invalidStatement (found : String)
  /-- The statement that `keyword` opened is not ended by a semicolon. -/
  | delimiterRequired (keyword : Keyword) (found : String)
  /-- The left side of an assignment is not a list of names. -/
  | invalidAssignment (found : String)
  /-- Two parameters of a block have the same name. -/
  | duplicateParameter (name : String)
  /-- A block ends without the expression that gives its value. -/
  | missingTail (found : String)
  /-- An integer literal is too large. -/
  | integerOverflow (text : String)
  /-- Expressions and blocks are nested more deeply than allowed. -/
  | tooDeep (limit : Nat)
deriving DecidableEq, Repr

/-- The wording of a grammatical error. -/
def GrammarCause.message : GrammarCause → String
  | .unclosedParen found => "unclosed parenthesis, found `" ++ found ++ "`"
  | .invalidExpression found => "invalid token `" ++ found ++ "` in expression position"
  | .unknownOperator found => "unknown operator `" ++ found ++ "`"
  | .invalidStatement found => "invalid statement starting with `" ++ found ++ "`"
  | .delimiterRequired keyword found =>
    "delimiter `;` required after " ++ keyword.text ++ ", found `" ++ found ++ "`"
  | .invalidAssignment found => "invalid assignment at `" ++ found ++ "`"
  | .duplicateParameter name => "duplicate parameter `" ++ name ++ "`"
  | .missingTail found => "block has no tail expression, found `" ++ found ++ "`"
  | .integerOverflow text => "integer literal `" ++ text ++ "` does not fit in 64 bits"
  | .tooDeep limit => "nesting deeper than " ++ Nat.repr limit ++ " levels"

/-- Why a source text is not a program. -/
inductive SyntaxCause where
  | lexical (cause : LexicalCause)
  | grammar (cause : GrammarCause)
deriving DecidableEq, Repr

/-- The wording of a syntax error. -/
def SyntaxCause.message : SyntaxCause → String
  | .lexical cause => cause.message
  | .grammar cause => cause.message

/-- A syntax error: why a source text is not a program, and which bytes of it are to blame. -/
structure SyntaxError where
  /-- What is wrong. -/
  cause : SyntaxCause
  /-- The bytes that it concerns. -/
  span : Span
deriving DecidableEq, Repr

/-- The wording of a syntax error, which does not depend on its place. -/
def SyntaxError.message (e : SyntaxError) : String :=
  e.cause.message

/-- The error that `cause` makes of a token. -/
def Token.reject (t : Token) (cause : String → GrammarCause) : SyntaxError :=
  ⟨.grammar (cause t.text), t.span⟩

end Blockscript
