import Blockscript.Decimal.Literal
import Blockscript.Token.Stream
import Mathlib.Data.List.Basic

/-!
# Reading written words

A word is a token without its place in the text. Here words are written one after the other, with
blanks between them, and it is shown that they are read back: the stream of such a text holds the
same kinds and texts in the same order, and then the text ends.

Two words may touch if the first one cannot go on with the characters of the second. That is a
condition on the text that follows a word, so it is stated there (`Word.Stops`) and not for pairs of
words.

## Main definitions

* `IsName`, `Decimal.IsDecimal` : how names and numbers with a decimal point are written.
* `Word`, `Word.Spelled` : words, and how each kind of them is written.
* `Word.Stops` : the word does not go on into the text after it.
* `Writes` : a text that consists of words and of blanks between them.

## Main results

* `Word.Spelled.read` : a word is the lexeme at the front of its text.
* `Stream.scan_of_writes` : the words of a text are read back.
-/

namespace Blockscript

/-! ### How words are written -/

/-- A letter or an underscore, then letters, digits and underscores, and not a reserved word. -/
structure IsName (text : List Char) : Prop where
  begins : ∃ c cs, text = c :: cs ∧ startsWord c = true
  goesOn : ∀ c ∈ text, continuesWord c = true
  ne_let : text ≠ ['l', 'e', 't']
  ne_print : text ≠ ['p', 'r', 'i', 'n', 't']

theorem isName_iff {text : List Char} :
    IsName text ↔ text.head?.any startsWord = true ∧ text.all continuesWord = true ∧
      text ≠ ['l', 'e', 't'] ∧ text ≠ ['p', 'r', 'i', 'n', 't'] := by
  constructor
  · rintro ⟨⟨c, cs, rfl, hc⟩, hgoesOn, hlet, hprint⟩
    exact ⟨hc, List.all_eq_true.mpr hgoesOn, hlet, hprint⟩
  · rintro ⟨hbegins, hgoesOn, hlet, hprint⟩
    rw [List.all_eq_true] at hgoesOn
    cases text with
    | nil => cases hbegins
    | cons c cs => exact ⟨⟨c, cs, rfl, hbegins⟩, hgoesOn, hlet, hprint⟩

instance (text : List Char) : Decidable (IsName text) :=
  decidable_of_iff _ isName_iff.symm

/-- Digits, at least one. -/
def Decimal.IsDigits (text : List Char) : Prop :=
  text ≠ [] ∧ ∀ c ∈ text, c.isDigit = true

/-- Digits around a decimal point. -/
def Decimal.IsDecimal (text : List Char) : Prop :=
  ∃ whole fraction, IsDigits whole ∧ IsDigits fraction ∧ text = whole ++ '.' :: fraction

/-- A token without its place in the text. -/
structure Word where
  /-- What sort of token it is. -/
  kind : Token.Kind
  /-- The characters of the token. -/
  text : List Char
deriving DecidableEq

/-- What remains of a token when its place is forgotten. -/
def Token.word (t : Token) : Word :=
  ⟨t.kind, t.text.toList⟩

namespace Word

/-- The ways in which words are written. A text literal stands between two quotes of one sort and
contains none of that sort. -/
inductive Spelled : Word → Prop where
  | name {text : List Char} (h : IsName text) : Spelled ⟨.identifier, text⟩
  | keyword (word : Keyword) : Spelled ⟨.keyword word, word.text.toList⟩
  | integer {text : List Char} (h : Decimal.IsDigits text) : Spelled ⟨.integer, text⟩
  | float {text : List Char} (h : Decimal.IsDecimal text) : Spelled ⟨.float, text⟩
  | string {quote : Char} {cs : List Char} (hquote : quote = '\x22' ∨ quote = '\x27')
    (hcs : quote ∉ cs) : Spelled ⟨.string, quote :: (cs ++ [quote])⟩
  | symbol {kind : Token.Kind} {c : Char} (h : Lexeme.symbolKind? c = some kind) :
    Spelled ⟨kind, [c]⟩

/-- The word does not go on into the text `rest` that follows it. -/
def Stops (w : Word) (rest : List Char) : Prop :=
  match w.kind with
  | .identifier | .keyword _ => ∀ c ∈ rest.head?, endsWord c = true
  | .integer | .float => ∀ c ∈ rest.head?, spoilsNumber c = false
  | _ => True

end Word

/-! ### Characters -/

theorem isAlpha_iff {c : Char} :
    c.isAlpha = true ↔ 65 ≤ c.toNat ∧ c.toNat ≤ 90 ∨ 97 ≤ c.toNat ∧ c.toNat ≤ 122 := by
  have halpha : c.isAlpha = (decide (65 ≤ c.val ∧ c.val ≤ 90) || (97 ≤ c.val && c.val ≤ 122)) := rfl
  rw [halpha, Bool.or_eq_true, Bool.and_eq_true, decide_eq_true_eq, decide_eq_true_eq,
    decide_eq_true_eq]
  rfl

theorem isDigit_iff {c : Char} : c.isDigit = true ↔ 48 ≤ c.toNat ∧ c.toNat ≤ 57 := by
  have hdigit : c.isDigit = (48 ≤ c.val && c.val ≤ 57) := rfl
  rw [hdigit, Bool.and_eq_true, decide_eq_true_eq, decide_eq_true_eq]
  rfl

theorem isAlphanum_eq_false_of_isWhiteSpace {c : Char} (h : Text.isWhiteSpace c = true) :
    c.isAlphanum = false := by
  simp only [Text.isWhiteSpace, Bool.or_eq_true, Bool.and_eq_true, decide_eq_true_eq,
    beq_iff_eq] at h
  rw [← Bool.not_eq_true, Char.isAlphanum, Bool.or_eq_true, isAlpha_iff, isDigit_iff]
  omega

/-- What ends a word neither goes on with a word nor spoils a number. -/
theorem continuesWord_spoilsNumber_of_endsWord {c : Char} (h : endsWord c = true) :
    continuesWord c = false ∧ spoilsNumber c = false := by
  rw [endsWord, Bool.or_eq_true] at h
  rcases h with h | h
  · have halnum := isAlphanum_eq_false_of_isWhiteSpace h
    have hne : c ≠ '_' ∧ c ≠ '.' := by
      constructor <;> rintro rfl <;> exact absurd h (by decide)
    simp [continuesWord, spoilsNumber, halnum, hne]
  · simp only [List.contains_eq_mem, decide_eq_true_eq, List.mem_cons, List.not_mem_nil,
      or_false] at h
    rcases h with rfl | rfl | rfl | rfl | rfl | rfl | rfl | rfl <;> decide

theorem isDigit_eq_false_of_startsWord {c : Char} (h : startsWord c = true) :
    c.isDigit = false := by
  rw [startsWord, Bool.or_eq_true, beq_iff_eq] at h
  rcases h with h | rfl
  · rw [isAlpha_iff] at h
    rw [← Bool.not_eq_true, isDigit_iff]
    omega
  · decide

/-- A token begins with the character: layout does not. -/
def beginsToken (c : Char) : Prop :=
  Text.isLayout c = false ∧ c ≠ '/'

theorem beginsToken_of_continuesWord {c : Char} (h : continuesWord c = true) : beginsToken c := by
  refine ⟨?_, fun hc => ?_⟩
  · by_contra hlayout
    rw [Bool.not_eq_false] at hlayout
    have hends : endsWord c = true := by
      rw [endsWord, Text.isWhiteSpace_of_isLayout hlayout, Bool.true_or]
    rw [(continuesWord_spoilsNumber_of_endsWord hends).1] at h
    cases h
  · rw [hc] at h
    revert h
    decide

/-! ### Reading a word -/

section TakeWhile

variable {p : Char → Bool} {text rest : List Char}

theorem takeWhile_of_stop (hrest : ∀ c ∈ rest.head?, p c = false) : rest.takeWhile p = [] := by
  cases rest with
  | nil => rfl
  | cons c cs => simp [hrest c rfl]

theorem takeWhile_append_of_stop (htext : ∀ c ∈ text, p c = true)
    (hrest : ∀ c ∈ rest.head?, p c = false) : (text ++ rest).takeWhile p = text := by
  rw [List.takeWhile_append_of_pos htext, takeWhile_of_stop hrest, List.append_nil]

theorem dropWhile_append_of_stop (htext : ∀ c ∈ text, p c = true)
    (hrest : ∀ c ∈ rest.head?, p c = false) : (text ++ rest).dropWhile p = rest := by
  rw [List.dropWhile_append_of_pos htext]
  cases rest with
  | nil => simp
  | cons c cs => simp [hrest c rfl]

end TakeWhile

namespace Lexeme

variable {text rest : List Char}

theorem readWord_append (htext : ∀ c ∈ text, continuesWord c = true)
    (hrest : ∀ c ∈ rest.head?, endsWord c = true) :
    readWord (text ++ rest) = .token (wordKind text) text := by
  have hstop : ∀ c ∈ rest.head?, continuesWord c = false := fun c hc =>
    (continuesWord_spoilsNumber_of_endsWord (hrest c hc)).1
  have hends : rest.takeWhile (fun c => !endsWord c) = [] :=
    takeWhile_of_stop fun c hc => by rw [hrest c hc]; rfl
  simp only [readWord, takeWhile_append_of_stop htext hstop, dropWhile_append_of_stop htext hstop,
    hends]

theorem readNumber_append {kind : Token.Kind} (hnumber : number (text ++ rest) = (kind, text))
    (hrest : ∀ c ∈ rest.head?, spoilsNumber c = false) :
    readNumber (text ++ rest) = .token kind text := by
  simp only [readNumber, hnumber, List.drop_left, takeWhile_of_stop hrest]

theorem isDigit_eq_false_of_spoilsNumber {c : Char} (h : spoilsNumber c = false) :
    c.isDigit = false ∧ c ≠ '.' := by
  simp only [spoilsNumber, Char.isAlphanum, Bool.or_eq_false_iff, beq_eq_false_iff_ne] at h
  exact ⟨h.1.1.2, h.2⟩

theorem number_digits (htext : Decimal.IsDigits text)
    (hrest : ∀ c ∈ rest.head?, spoilsNumber c = false) :
    number (text ++ rest) = (.integer, text) := by
  have hstop : ∀ c ∈ rest.head?, c.isDigit = false := fun c hc =>
    (isDigit_eq_false_of_spoilsNumber (hrest c hc)).1
  simp only [number, takeWhile_append_of_stop htext.2 hstop, dropWhile_append_of_stop htext.2 hstop]
  split
  · exact absurd rfl (isDigit_eq_false_of_spoilsNumber (hrest '.' rfl)).2
  · rfl

theorem number_decimal (htext : Decimal.IsDecimal text)
    (hrest : ∀ c ∈ rest.head?, spoilsNumber c = false) :
    number (text ++ rest) = (.float, text) := by
  obtain ⟨whole, fraction, hwhole, hfraction, rfl⟩ := htext
  have hstop : ∀ c ∈ rest.head?, c.isDigit = false := fun c hc =>
    (isDigit_eq_false_of_spoilsNumber (hrest c hc)).1
  have hpoint : ∀ c ∈ ('.' :: (fraction ++ rest)).head?, c.isDigit = false := by simp
  rw [List.append_assoc, List.cons_append]
  simp only [number, takeWhile_append_of_stop hwhole.2 hpoint,
    dropWhile_append_of_stop hwhole.2 hpoint, takeWhile_append_of_stop hfraction.2 hstop]
  split
  · exact absurd rfl hfraction.1
  · rfl

theorem readString_append {quote : Char} (htext : quote ∉ text) :
    readString quote (text ++ quote :: rest) = .token .string (quote :: (text ++ [quote])) := by
  have htext' : ∀ c ∈ text, (c != quote) = true := fun c hc => by
    rw [bne_iff_ne]
    rintro rfl
    exact htext hc
  have hquote : ∀ c ∈ (quote :: rest).head?, (c != quote) = false := by simp
  simp only [readString, dropWhile_append_of_stop htext' hquote,
    takeWhile_append_of_stop htext' hquote, List.cons_append]

/-! Which of these reads a text depends on its first character. -/

theorem read_word {c : Char} {cs : List Char} (hc : startsWord c = true)
    (hcs : ∀ d ∈ c :: cs, continuesWord d = true) (hrest : ∀ d ∈ rest.head?, endsWord d = true) :
    read c (cs ++ rest) = .token (wordKind (c :: cs)) (c :: cs) := by
  rw [read, isDigit_eq_false_of_startsWord hc, if_neg (by decide), if_pos hc, ← List.cons_append,
    readWord_append hcs hrest]

theorem read_number {c : Char} {cs : List Char} {kind : Token.Kind} (hc : c.isDigit = true)
    (hnumber : number (c :: cs ++ rest) = (kind, c :: cs))
    (hrest : ∀ d ∈ rest.head?, spoilsNumber d = false) :
    read c (cs ++ rest) = .token kind (c :: cs) := by
  rw [read, if_pos hc, ← List.cons_append, readNumber_append hnumber hrest]

theorem read_string {quote : Char} (hquote : quote = '\x22' ∨ quote = '\x27')
    (htext : quote ∉ text) :
    read quote (text ++ [quote] ++ rest) = .token .string (quote :: (text ++ [quote])) := by
  have hdigit : quote.isDigit = false := by rcases hquote with rfl | rfl <;> rfl
  have hword : startsWord quote = false := by rcases hquote with rfl | rfl <;> rfl
  rw [read, hdigit, hword, if_neg (by decide), if_neg (by decide), if_pos hquote,
    List.append_assoc, List.singleton_append, readString_append htext]

theorem read_symbol {c : Char} {kind : Token.Kind} (h : symbolKind? c = some kind)
    (cs : List Char) : beginsToken c ∧ read c cs = .token kind [c] := by
  rw [symbolKind?] at h
  split_ifs at h <;> subst_vars <;> exact ⟨⟨rfl, by decide⟩, by cases h; rfl⟩

end Lexeme

theorem continuesWord_of_isDigit {c : Char} (h : c.isDigit = true) : continuesWord c = true := by
  rw [continuesWord, Char.isAlphanum, h, Bool.or_true, Bool.true_or]

namespace Word

variable {w : Word} {rest : List Char}

/-- **A word is the lexeme at the front of its text**, provided that it stops there. -/
theorem Spelled.read (h : w.Spelled) (hrest : w.Stops rest) :
    ∃ c cs, w.text = c :: cs ∧ beginsToken c ∧
      Lexeme.read c (cs ++ rest) = .token w.kind w.text := by
  cases h with
  | name h =>
    obtain ⟨c, cs, rfl, hc⟩ := h.begins
    refine ⟨c, cs, rfl, beginsToken_of_continuesWord (h.goesOn c (by simp)), ?_⟩
    rw [Lexeme.read_word hc h.goesOn hrest, Lexeme.wordKind, if_neg h.ne_let, if_neg h.ne_print]
  | keyword word =>
    cases word with
    | letWord =>
      exact ⟨'l', ['e', 't'], rfl, ⟨rfl, by decide⟩,
        Lexeme.read_word rfl (List.all_eq_true.mp rfl) hrest⟩
    | printWord =>
      exact ⟨'p', ['r', 'i', 'n', 't'], rfl, ⟨rfl, by decide⟩,
        Lexeme.read_word rfl (List.all_eq_true.mp rfl) hrest⟩
  | @integer text h =>
    obtain ⟨c, cs, rfl⟩ := List.exists_cons_of_ne_nil h.1
    have hc : c.isDigit = true := h.2 c (by simp)
    exact ⟨c, cs, rfl, beginsToken_of_continuesWord (continuesWord_of_isDigit hc),
      Lexeme.read_number hc (Lexeme.number_digits h hrest) hrest⟩
  | @float text h =>
    -- There is a digit in front of the point, so the text begins with one.
    obtain ⟨c, cs, rfl, hc⟩ : ∃ c cs, text = c :: cs ∧ c.isDigit = true := by
      obtain ⟨whole, fraction, hwhole, -, rfl⟩ := h
      obtain ⟨c, cs, rfl⟩ := List.exists_cons_of_ne_nil hwhole.1
      exact ⟨c, cs ++ '.' :: fraction, rfl, hwhole.2 c (by simp)⟩
    exact ⟨c, cs, rfl, beginsToken_of_continuesWord (continuesWord_of_isDigit hc),
      Lexeme.read_number hc (Lexeme.number_decimal h hrest) hrest⟩
  | @string quote cs hquote hcs =>
    refine ⟨quote, cs ++ [quote], rfl, ?_, Lexeme.read_string hquote hcs⟩
    rcases hquote with rfl | rfl <;> exact ⟨rfl, by decide⟩
  | @symbol kind c h =>
    obtain ⟨hbegins, hread⟩ := Lexeme.read_symbol h rest
    exact ⟨c, [], rfl, hbegins, hread⟩

end Word

/-! ### Reading a text of words -/

/-- Layout that ends before the next token: it is cut off as it is, whatever token comes next. -/
def Text.IsGap (gap : List Char) : Prop :=
  ∀ cs : List Char, (∀ c ∈ cs.head?, beginsToken c) → splitLayout (gap ++ cs) = (gap, cs)

/-- Blanks in front of a token, or at the end, are cut off as layout. -/
theorem Text.isGap_of_blanks {gap : List Char} (hgap : ∀ c ∈ gap, isLayout c = true) :
    IsGap gap := by
  intro cs hcs
  rw [splitLayout]
  induction gap with
  | nil =>
    cases cs with
    | nil => rfl
    | cons c cs =>
      obtain ⟨hlayout, hslash⟩ := hcs c rfl
      simp [splitLayoutFrom, hlayout, hslash]
  | cons c gap ih =>
    have hc : isLayout c = true := hgap c (by simp)
    rw [List.cons_append, splitLayoutFrom, ih fun d hd => hgap d (by simp [hd])]
    simp [hc]

/-- The text consists of these words in order, with blanks in front of each and after the last. -/
inductive Writes : List Word → List Char → Prop where
  | nil {gap : List Char} (hgap : ∀ c ∈ gap, Text.isLayout c = true) : Writes [] gap
  | cons {w : Word} {ws : List Word} {gap rest : List Char}
    (hgap : ∀ c ∈ gap, Text.isLayout c = true) (hw : w.Spelled) (hstops : w.Stops rest)
    (hrest : Writes ws rest) : Writes (w :: ws) (gap ++ (w.text ++ rest))

/-- The first word after layout is read as a token that covers its bytes. -/
theorem Token.read_word {w : Word} {gap rest : List Char} (hgap : Text.IsGap gap)
    (hw : w.Spelled) (hstops : w.Stops rest) (offset : Nat) :
    let start := offset + Text.byteLength gap
    Token.read offset (gap ++ (w.text ++ rest)) =
      .token ⟨w.kind, String.ofList w.text, ⟨start, start + Text.byteLength w.text⟩⟩ rest := by
  obtain ⟨c, cs, htext, hbegins, hread⟩ := hw.read hstops
  have hsplit : Text.splitLayout (gap ++ (w.text ++ rest)) = (gap, c :: (cs ++ rest)) := by
    rw [htext, List.cons_append]
    exact hgap _ (by simpa using hbegins)
  simp only [Token.read, hsplit, hread]
  rw [htext]
  simp

/-- **The words of a text are read back**, and then the text ends. -/
theorem Stream.scan_of_writes {ws : List Word} {cs : List Char} (h : Writes ws cs) (offset : Nat) :
    (scan offset cs).1.map Token.word = ws ∧ ∃ size, (scan offset cs).2 = .eof size := by
  induction h generalizing offset with
  | @nil gap hgap =>
    have hsplit : Text.splitLayout gap = (gap, []) := by
      simpa using Text.isGap_of_blanks hgap [] (by simp)
    have hread : Token.read offset gap = .eof (offset + Text.byteLength gap) := by
      simp only [Token.read, hsplit]
    rw [scan]
    split <;> simp_all
  | @cons w ws gap rest hgap hw hstops hrest ih =>
    have hread := Token.read_word (Text.isGap_of_blanks hgap) hw hstops offset
    rw [scan]
    split
    · next t rest' hread' =>
      rw [hread] at hread'
      cases hread'
      obtain ⟨hwords, hend⟩ := ih (offset + Text.byteLength gap + Text.byteLength w.text)
      refine ⟨?_, hend⟩
      simp [hwords, Token.word]
    · simp_all
    · simp_all

end Blockscript
