import Blockscript.Text.Printable

/-!
# Quoted text

How a character or a text is shown between quotes so that a reader can tell exactly which
characters it holds. Four control characters have an escape of their own, the enclosing quote and
the backslash are marked by a backslash, and every other character that cannot be shown is written
by its number.

## Main definitions

* `Text.escape` : one character as it stands between two given quotes.
* `Text.quotedChar`, `Text.quoted` : a character between single, a text between double quotes.
-/

namespace Blockscript.Text

/-- The number of a character in lower-case hexadecimal, without leading zeros, in braces. -/
def escapeNumber (c : Char) : List Char :=
  ['\\', 'u', '\x7b'] ++ Nat.toDigits 16 c.toNat ++ ['\x7d']

/-- One character as it stands between two marks `quote`. -/
def escape (quote c : Char) : List Char :=
  if c = '\x00' then ['\\', '0']
  else if c = '\t' then ['\\', 't']
  else if c = '\r' then ['\\', 'r']
  else if c = '\n' then ['\\', 'n']
  else if c = '\\' || c = quote then ['\\', c]
  else if isPrintable c then [c]
  else escapeNumber c

/-- A character between single quotes. -/
def quotedChar (c : Char) : String :=
  String.ofList (['\x27'] ++ escape '\x27' c ++ ['\x27'])

/-- A text between double quotes. -/
def quoted (s : String) : String :=
  String.ofList (['\x22'] ++ s.toList.flatMap (escape '\x22') ++ ['\x22'])

end Blockscript.Text
