import Blockscript.Text.Utf8

/-!
# Lines and columns

Errors are located by byte offset; people are told a line and a column. A column counts
characters, except that an offset inside a character has no character of its own to count, and
then the column counts bytes.

## Main definitions

* `Text.Position` : a line and a column, both from 1.
* `Text.Position.ofOffset` : the position of a byte offset in a text.
-/

namespace Blockscript.Text

/-- A place in a text as it is shown to people: both numbers start at 1. -/
structure Position where
  /-- The number of the line. -/
  line : Nat
  /-- The number of the column within the line. -/
  column : Nat
deriving DecidableEq, Repr

/-- Cuts a text at byte offset `n`: the characters that end at or before `n`, and how many bytes
of the next character lie before `n`. An offset beyond the end counts as the end. -/
def cutAt : Nat → List Char → List Char × Nat
  | _, [] => ([], 0)
  | n, c :: cs =>
    if c.utf8Size ≤ n then
      let (before, inside) := cutAt (n - c.utf8Size) cs
      (c :: before, inside)
    else ([], n)

/-- The end of a text, after its last line feed. -/
def lastLine (cs : List Char) : List Char :=
  (cs.reverse.takeWhile (· != '\n')).reverse

/-- The position of byte offset `n`. The line is one more than the number of line feeds before
`n`. The column is one more than the number of characters from the start of the line, or of bytes
if `n` lies inside a character. -/
def Position.ofOffset (cs : List Char) (n : Nat) : Position :=
  let (before, inside) := cutAt n cs
  let line := lastLine before
  { line := before.count '\n' + 1
    column := (if inside = 0 then line.length else byteLength line + inside) + 1 }

end Blockscript.Text
