import Blockscript.Expr

/-!
# Tokens

A token is a word of the source together with its kind and the bytes it covers. The kind alone
decides what the grammar may do with it: how tightly it binds an operand on its left, and whether
an expression or a statement can begin with it.

## Main definitions

* `Span` : a range of bytes.
* `Keyword`, `Token.Kind`, `Token`.
* `Token.Kind.leftPower`, `Token.Kind.beginsExpr`, `Token.Kind.beginsStmt`, `Token.Kind.op?` : what
  the grammar asks of a kind.
-/

namespace Blockscript

/-- The bytes from `start` up to, but not including, `stop`. -/
structure Span where
  /-- The offset of the first byte. -/
  start : Nat
  /-- The offset after the last byte. -/
  stop : Nat
deriving DecidableEq, Repr

/-- The reserved words. -/
inductive Keyword where
  | letWord
  | printWord
deriving DecidableEq, Repr

/-- How a keyword is written. -/
def Keyword.text : Keyword → String
  | .letWord => "let"
  | .printWord => "print"

/-- The kinds of tokens. -/
inductive Token.Kind where
  | integer
  | float
  | string
  | identifier
  | keyword (word : Keyword)
  | operator (op : Op)
  | openParen
  | closeParen
  | equals
  | semicolon
  /-- The end of the source, which can be read any number of times. -/
  | eof
deriving DecidableEq, Repr

/-- A token of a source text. -/
structure Token where
  /-- What sort of token it is. -/
  kind : Token.Kind
  /-- The characters of the source that it consists of. -/
  text : String
  /-- The bytes of the source that it covers. -/
  span : Span
deriving DecidableEq, Repr

namespace Token

/-- The token that stands at the end of a source of `size` bytes. -/
def eof (size : Nat) : Token :=
  ⟨.eof, "", ⟨size, size⟩⟩

namespace Kind

/-- The operator that a kind stands for. -/
def op? : Kind → Option Op
  | .operator op => some op
  | _ => none

/-- How tightly a token binds the operand on its left. What ends a statement binds less than
anything that can stand inside one. -/
def leftPower : Kind → Int
  | .operator .mul => 3
  | .operator .add | .operator .sub => 2
  | .semicolon | .eof => -1
  | _ => 0

/-- Whether an expression can begin with this kind of token. -/
def beginsExpr : Kind → Bool
  | .integer | .float | .string | .identifier | .openParen => true
  | _ => false

/-- Whether a statement can begin with this kind of token. -/
def beginsStmt : Kind → Bool
  | .keyword _ => true
  | k => k.beginsExpr

end Kind

end Token

end Blockscript
