import Blockscript.Text.Blank
import Blockscript.SyntaxError

/-!
# Lexemes

What stands at the front of a text that begins with no layout: a token, or a fault. Either covers a
first part of the text, which is never empty. A token is the longest that the text begins with; a
number or a word must moreover not run into a character that cannot follow it.

Three things follow the documented behaviour of a lexer that is generated from a pattern for each
kind of token: the longest match is taken, a match that fails further on falls back on the longest
one before (`3.` on `3`, where no digit follows the point), and layout is skipped. The characters
that may not follow a number or a word are not part of the patterns; they are looked at when a match
has been found.

## Main definitions

* `Text.splitLayout` : cuts off the blanks and comments in front.
* `Lexeme` : a token or a fault, with the characters it covers.
* `Lexeme.read` : the lexeme at the front of a text.

## Main results

* `Text.splitLayout_append` : cutting off the layout loses nothing.
* `Lexeme.text_prefix_read`, `Lexeme.text_ne_nil` : a lexeme covers a first part of the text, and at
  least one character of it.
-/

namespace Blockscript

namespace Text

/-- Cuts off the blanks and comments in front. `inComment` says whether the text begins inside a
comment, which reaches from two slashes to the end of the line. -/
def splitLayoutFrom (inComment : Bool) : List Char → List Char × List Char
  | [] => ([], [])
  | c :: cs =>
    if inComment then
      let (gap, rest) := splitLayoutFrom (c != '\n') cs
      (c :: gap, rest)
    else if isLayout c then
      let (gap, rest) := splitLayoutFrom false cs
      (c :: gap, rest)
    else if c = '/' ∧ cs.head? = some '/' then
      let (gap, rest) := splitLayoutFrom true cs
      (c :: gap, rest)
    else ([], c :: cs)

/-- Cuts off the blanks and comments in front of a text. -/
def splitLayout (cs : List Char) : List Char × List Char :=
  splitLayoutFrom false cs

theorem splitLayoutFrom_append (inComment : Bool) (cs : List Char) :
    (splitLayoutFrom inComment cs).1 ++ (splitLayoutFrom inComment cs).2 = cs := by
  induction cs generalizing inComment with
  | nil => rfl
  | cons c cs ih =>
    rw [splitLayoutFrom]
    split
    · simp [ih]
    · split
      · simp [ih]
      · split
        · simp [ih]
        · rfl

/-- The layout and what follows it make up the text. -/
theorem splitLayout_append (cs : List Char) : (splitLayout cs).1 ++ (splitLayout cs).2 = cs :=
  splitLayoutFrom_append false cs

end Text

/-! ### Character classes -/

/-- Whether a word can begin with the character. -/
def startsWord (c : Char) : Bool :=
  c.isAlpha || c == '_'

/-- Whether a word can go on with the character. -/
def continuesWord (c : Char) : Bool :=
  c.isAlphanum || c == '_'

/-- Whether a word can be followed by the character. -/
def endsWord (c : Char) : Bool :=
  Text.isWhiteSpace c || ['(', ')', '+', '-', '*', '=', ';', '/'].contains c

/-- Whether the character spoils a number that it follows. -/
def spoilsNumber (c : Char) : Bool :=
  c.isAlphanum || c == '_' || c == '.'

/-! ### Reading one lexeme -/

/-- A token or a fault, with the characters that it covers. -/
inductive Lexeme where
  | token (kind : Token.Kind) (text : List Char)
  | fault (cause : LexicalCause) (text : List Char)

namespace Lexeme

/-- The characters that a lexeme covers. -/
def text : Lexeme → List Char
  | .token _ text => text
  | .fault _ text => text

/-- The longest number at the front of a text that begins with digits: digits alone, or digits
around a decimal point. -/
def number (cs : List Char) : Token.Kind × List Char :=
  let whole := cs.takeWhile Char.isDigit
  match cs.dropWhile Char.isDigit with
  | '.' :: rest =>
    match rest.takeWhile Char.isDigit with
    | [] => (.integer, whole)
    | fraction => (.float, whole ++ '.' :: fraction)
  | _ => (.integer, whole)

/-- The lexeme of a text that begins with a digit. -/
def readNumber (cs : List Char) : Lexeme :=
  let text := (number cs).2
  match (cs.drop text.length).takeWhile spoilsNumber with
  | [] => .token (number cs).1 text
  | spoiling => .fault (.malformedNumber (String.ofList (text ++ spoiling))) (text ++ spoiling)

/-- The kind of a word, which is an identifier unless it is reserved. -/
def wordKind (text : List Char) : Token.Kind :=
  if text = ['l', 'e', 't'] then .keyword .letWord
  else if text = ['p', 'r', 'i', 'n', 't'] then .keyword .printWord
  else .identifier

/-- The lexeme of a text that begins with a letter or an underscore. -/
def readWord (cs : List Char) : Lexeme :=
  let text := cs.takeWhile continuesWord
  match (cs.dropWhile continuesWord).takeWhile fun c => !endsWord c with
  | [] => .token (wordKind text) text
  | spoiling => .fault (.malformedIdentifier (String.ofList (text ++ spoiling))) (text ++ spoiling)

/-- The lexeme of a text that begins with the mark `quote`, which `cs` follows. -/
def readString (quote : Char) (cs : List Char) : Lexeme :=
  match cs.dropWhile (· != quote) with
  | [] => .fault .unterminatedString [quote]
  | close :: _ => .token .string (quote :: cs.takeWhile (· != quote) ++ [close])

/-- The kind of the token that consists of this character alone. -/
def symbolKind? (c : Char) : Option Token.Kind :=
  if c = '+' then some (.operator .add)
  else if c = '-' then some (.operator .sub)
  else if c = '*' then some (.operator .mul)
  else if c = '(' then some .openParen
  else if c = ')' then some .closeParen
  else if c = '=' then some .equals
  else if c = ';' then some .semicolon
  else none

/-- The lexeme at the front of a text that begins with `c` and goes on with `cs`. -/
def read (c : Char) (cs : List Char) : Lexeme :=
  if c.isDigit then readNumber (c :: cs)
  else if startsWord c then readWord (c :: cs)
  else if c = '\x22' ∨ c = '\x27' then readString c cs
  else match symbolKind? c with
    | some kind => .token kind [c]
    | none => .fault (.unrecognizedChar c) [c]

/-! ### A lexeme covers a first part of the text -/

theorem takeWhile_prefix_drop {p : Char → Bool} {text cs : List Char} (h : text <+: cs) :
    text ++ (cs.drop text.length).takeWhile p <+: cs := by
  obtain ⟨rest, rfl⟩ := h
  simpa using List.takeWhile_prefix p

theorem number_prefix (cs : List Char) : (number cs).2 <+: cs := by
  have hcs := List.takeWhile_append_dropWhile (p := Char.isDigit) (l := cs)
  rw [number]
  split
  · next rest hrest =>
    split
    · exact List.takeWhile_prefix _
    · next fraction hfraction hne =>
      rw [hrest] at hcs
      conv => rhs; rw [← hcs]
      rw [List.prefix_append_right_inj, List.cons_prefix_cons]
      exact ⟨rfl, List.takeWhile_prefix _⟩
  · exact List.takeWhile_prefix _

theorem text_readNumber_prefix (cs : List Char) : (readNumber cs).text <+: cs := by
  have h := number_prefix cs
  have h' := takeWhile_prefix_drop (p := spoilsNumber) h
  rw [readNumber]
  split
  · exact h
  · exact h'

theorem text_readWord_prefix (cs : List Char) : (readWord cs).text <+: cs := by
  have hcs := List.takeWhile_append_dropWhile (p := continuesWord) (l := cs)
  rw [readWord]
  split
  · exact List.takeWhile_prefix _
  · simp only [text]
    conv => rhs; rw [← hcs]
    rw [List.prefix_append_right_inj]
    exact List.takeWhile_prefix _

theorem text_readString_prefix (quote : Char) (cs : List Char) :
    (readString quote cs).text <+: quote :: cs := by
  have hcs := List.takeWhile_append_dropWhile (p := (· != quote)) (l := cs)
  rw [readString]
  split
  · simp [text]
  · next close rest hclose =>
    rw [hclose] at hcs
    simp only [text, List.cons_append, List.cons_prefix_cons, true_and]
    conv => rhs; rw [← hcs]
    rw [List.prefix_append_right_inj]
    simp

/-- A lexeme covers a first part of the text. -/
theorem text_prefix_read (c : Char) (cs : List Char) : (read c cs).text <+: c :: cs := by
  rw [read]
  split
  · exact text_readNumber_prefix _
  · split
    · exact text_readWord_prefix _
    · split
      · exact text_readString_prefix _ _
      · split <;> simp [text]

theorem number_ne_nil {c : Char} (h : c.isDigit) (cs : List Char) : (number (c :: cs)).2 ≠ [] := by
  rw [number]
  split
  · split <;> simp [h]
  · simp [h]

/-- A lexeme covers at least one character. -/
theorem text_ne_nil (c : Char) (cs : List Char) : (read c cs).text ≠ [] := by
  rw [read]
  split
  · next h =>
    have := number_ne_nil h cs
    rw [readNumber]
    split <;> simp_all [text]
  · split
    · next h =>
      have hc : continuesWord c := by
        simp only [startsWord, continuesWord, Char.isAlphanum, Bool.or_eq_true] at h ⊢
        exact h.imp_left .inl
      rw [readWord]
      split <;> simp [text, hc]
    · split
      · rw [readString]
        split <;> simp [text]
      · split <;> simp [text]

end Lexeme

end Blockscript
