import Blockscript.Token.Stream

/-!
# Parsers

A parser takes tokens off the front of a stream. What makes the parsers of this library total is
that a success always takes at least one token, so that fact is part of the type: a loop that runs
a parser again on what is left has fewer tokens to go.

## Main definitions

* `Parser` : a function on streams that shortens the stream whenever it succeeds.
* `Parser.tooDeep` : the parser that stands beyond the permitted nesting.
-/

namespace Blockscript

/-- Takes tokens off the front of a stream, at least one if it succeeds. -/
structure Parser (α : Type) where
  /-- Runs the parser: its result and the stream that is left. -/
  run : Stream → Except SyntaxError (α × Stream)
  /-- A success leaves fewer tokens. -/
  size_lt : ∀ {s r : Stream} {a : α}, run s = .ok (a, r) → r.size < s.size

namespace Parser

/-- The parser that stands beyond the permitted nesting: it fails before it reads anything. -/
def tooDeep {α : Type} (limit : Nat) : Parser α where
  run s := .error (s.tooDeep limit)
  size_lt h := by cases h

end Parser

end Blockscript
