/-!
# White space

Two notions of a blank character are in use. Programs may be laid out with the five blanks of
`isLayout` only, whereas words end at any character that Unicode calls white space, and the same
wide notion decides what surrounds a line typed at the prompt.

## Main definitions

* `Text.isLayout` : the blanks that may stand between tokens.
* `Text.isWhiteSpace` : the Unicode property `White_Space`.
* `Text.trim` : a text without the white space at its two ends.
-/

namespace Blockscript.Text

/-- A blank that may stand between tokens: space, tab, line feed, carriage return, form feed. -/
def isLayout (c : Char) : Bool :=
  c == ' ' || c == '\t' || c == '\n' || c == '\r' || c == '\x0c'

/-- The Unicode property `White_Space`. -/
def isWhiteSpace (c : Char) : Bool :=
  let n := c.toNat
  (0x09 ≤ n && n ≤ 0x0d) || n == 0x20 || n == 0x85 || n == 0xa0 || n == 0x1680 ||
    (0x2000 ≤ n && n ≤ 0x200a) || n == 0x2028 || n == 0x2029 || n == 0x202f || n == 0x205f ||
    n == 0x3000

/-- Every layout blank is white space. -/
theorem isWhiteSpace_of_isLayout {c : Char} (h : isLayout c) : isWhiteSpace c := by
  simp only [isLayout, Bool.or_eq_true, beq_iff_eq] at h
  rcases h with (((rfl | rfl) | rfl) | rfl) | rfl <;> decide

/-- A text without the white space at its two ends. -/
def trim (cs : List Char) : List Char :=
  ((cs.dropWhile isWhiteSpace).reverse.dropWhile isWhiteSpace).reverse

end Blockscript.Text
