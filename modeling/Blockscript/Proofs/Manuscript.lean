import Blockscript.Proofs.Rescanning
import Mathlib.Data.List.Chain

/-!
# Reading a manuscript

A manuscript is a list of words with whatever its author put between them: blanks, line breaks and
comments. Where nothing is put between two words, they must not run into each other. What is read in
a manuscript are its words, with the bytes that they take, and then its end.

Whether two words may touch depends on their kinds alone. A word that is made of letters may touch
none but symbols, and a number may also touch a text literal, whose quote cannot go on with it.

## Main definitions

* `Text.IsFilling` : blanks and comments.
* `Token.Kind.mayTouch` : whether a word may follow another with nothing in between.
* `Manuscript` : words and the filling around them.
* `Manuscript.tokens` : the words, each with the bytes that it takes.

## Main results

* `Text.IsFilling.isGap` : filling is layout.
* `Word.stops_of_mayTouch` : a word that may touch the next one stops there.
* `Manuscript.ofText_text` : the words of a manuscript are read back.
-/

namespace Blockscript

/-! ### Filling -/

namespace Text

/-- Blanks and comments in any order. A comment reaches from two slashes to the end of the line,
which belongs to it. -/
inductive IsFilling : List Char → Prop where
  | nil : IsFilling []
  | blank {c : Char} {cs : List Char} (hc : isLayout c = true) (h : IsFilling cs) :
    IsFilling (c :: cs)
  | comment {body cs : List Char} (hbody : '\n' ∉ body) (h : IsFilling cs) :
    IsFilling ('/' :: '/' :: (body ++ '\n' :: cs))

/-- Inside a comment, all is cut off that stands on its line. -/
theorem splitLayoutFrom_true_append {body : List Char} (hbody : '\n' ∉ body) (cs : List Char) :
    splitLayoutFrom true (body ++ cs) =
      (body ++ (splitLayoutFrom true cs).1, (splitLayoutFrom true cs).2) := by
  induction body with
  | nil => rfl
  | cons c body ih =>
    rw [List.mem_cons, not_or] at hbody
    have hc : (c != '\n') = true := bne_iff_ne.mpr (Ne.symm hbody.1)
    rw [List.cons_append, splitLayoutFrom, if_pos rfl, hc, ih hbody.2]
    rfl

/-- A comment is cut off to the end of its line. -/
theorem splitLayoutFrom_comment {body : List Char} (hbody : '\n' ∉ body) (cs : List Char) :
    splitLayoutFrom true (body ++ '\n' :: cs) =
      (body ++ '\n' :: (splitLayoutFrom false cs).1, (splitLayoutFrom false cs).2) := by
  rw [splitLayoutFrom_true_append hbody]
  rfl

/-- **Filling is layout**: it is cut off as it is, whatever token comes next. -/
theorem IsFilling.isGap {gap : List Char} (h : IsFilling gap) : IsGap gap := by
  intro cs hcs
  rw [splitLayout]
  induction h with
  | nil => exact isGap_of_blanks (by simp) cs hcs
  | blank hc _ ih =>
    rw [List.cons_append, splitLayoutFrom, if_neg (by simp), if_pos hc, ih]
  | @comment body rest hbody _ ih =>
    have hsecond : splitLayoutFrom true ('/' :: (body ++ '\n' :: (rest ++ cs))) =
        ('/' :: (body ++ '\n' :: rest), cs) := by
      rw [← List.cons_append, splitLayoutFrom_comment (by simpa using hbody), ih]
      rfl
    rw [List.cons_append, List.cons_append, List.append_assoc, List.cons_append, splitLayoutFrom,
      if_neg (by simp), if_neg (by decide), if_pos ⟨rfl, rfl⟩, hsecond]

/-- Filling ends the word in front of it. -/
theorem IsFilling.endsWord_head {gap : List Char} (h : IsFilling gap) :
    ∀ c ∈ gap.head?, endsWord c = true := by
  intro c hc
  cases h with
  | nil => cases hc
  | blank hlayout _ =>
    obtain rfl := Option.some_inj.mp hc
    rw [endsWord, isWhiteSpace_of_isLayout hlayout, Bool.true_or]
  | comment _ _ =>
    obtain rfl := Option.some_inj.mp hc
    rfl

end Text

/-! ### Words that touch -/

/-- Whether a word of the second kind may follow a word of the first with nothing in between. -/
def Token.Kind.mayTouch : Token.Kind → Token.Kind → Bool
  | .identifier, right | .keyword _, right =>
    match right with
    | .identifier | .keyword _ | .integer | .float | .string => false
    | _ => true
  | .integer, right | .float, right =>
    match right with
    | .identifier | .keyword _ | .integer | .float => false
    | _ => true
  | _, _ => true

namespace Word

variable {v w : Word} {rest : List Char}

theorem endsWord_of_symbolKind {c : Char} {kind : Token.Kind}
    (h : Lexeme.symbolKind? c = some kind) : endsWord c = true := by
  rw [Lexeme.symbolKind?] at h
  split_ifs at h <;> subst_vars <;> rfl

/-- What may touch a name begins with a character that ends words. -/
theorem Spelled.endsWord_head (hw : w.Spelled)
    (h : Token.Kind.identifier.mayTouch w.kind = true) :
    ∃ c cs, w.text = c :: cs ∧ endsWord c = true := by
  cases hw with
  | symbol hsymbol => exact ⟨_, [], rfl, endsWord_of_symbolKind hsymbol⟩
  | _ => cases h

/-- What may touch a number begins with a character that does not spoil numbers. -/
theorem Spelled.spoilsNumber_head (hw : w.Spelled)
    (h : Token.Kind.integer.mayTouch w.kind = true) :
    ∃ c cs, w.text = c :: cs ∧ spoilsNumber c = false := by
  cases hw with
  | symbol hsymbol =>
    have hends := endsWord_of_symbolKind hsymbol
    exact ⟨_, [], rfl, (continuesWord_spoilsNumber_of_endsWord hends).2⟩
  | string hquote _ =>
    refine ⟨_, _, rfl, ?_⟩
    rcases hquote with rfl | rfl <;> rfl
  | _ => cases h

/-- **A word that may touch the next one stops there.** -/
theorem stops_of_mayTouch (hw : w.Spelled) (h : v.kind.mayTouch w.kind = true) :
    v.Stops (w.text ++ rest) := by
  have hword (hends : ∃ c cs, w.text = c :: cs ∧ endsWord c = true) :
      ∀ c ∈ (w.text ++ rest).head?, endsWord c = true := by
    obtain ⟨c, cs, htext, hc⟩ := hends
    simp [htext, hc]
  have hnumber (hspoils : ∃ c cs, w.text = c :: cs ∧ spoilsNumber c = false) :
      ∀ c ∈ (w.text ++ rest).head?, spoilsNumber c = false := by
    obtain ⟨c, cs, htext, hc⟩ := hspoils
    simp [htext, hc]
  rw [Stops]
  split
  · next hkind =>
    rw [hkind] at h
    exact hword (hw.endsWord_head h)
  · next hkind =>
    rw [hkind] at h
    exact hword (hw.endsWord_head h)
  · next hkind =>
    rw [hkind] at h
    exact hnumber (hw.spoilsNumber_head h)
  · next hkind =>
    rw [hkind] at h
    exact hnumber (hw.spoilsNumber_head h)
  · trivial

end Word

/-! ### Manuscripts -/

/-- A word of a manuscript, and what stands in front of it. -/
structure Manuscript.Piece where
  /-- What stands between the word before and this one. -/
  gap : List Char
  word : Word

/-- The pieces can follow each other: something stands between them, or the words may touch. -/
def Manuscript.Piece.Joins (p q : Piece) : Prop :=
  q.gap = [] → p.word.kind.mayTouch q.word.kind = true

/-- Properly written words, one after the other, with filling in front of each and after the
last. -/
structure Manuscript where
  pieces : List Manuscript.Piece
  /-- What stands after the last word. -/
  last : List Char
  spelled : ∀ p ∈ pieces, p.word.Spelled
  filling : ∀ p ∈ pieces, Text.IsFilling p.gap
  last_filling : Text.IsFilling last
  joins : pieces.IsChain Manuscript.Piece.Joins

namespace Manuscript

/-- The characters of pieces, followed by those of `last`. -/
def chars (last : List Char) : List Piece → List Char
  | [] => last
  | p :: ps => p.gap ++ (p.word.text ++ chars last ps)

/-- The words of pieces that begin at byte `offset`, each with the bytes that it takes. -/
def tokensFrom (offset : Nat) : List Piece → List Token
  | [] => []
  | p :: ps =>
    let start := offset + Text.byteLength p.gap
    let stop := start + Text.byteLength p.word.text
    ⟨p.word.kind, String.ofList p.word.text, ⟨start, stop⟩⟩ :: tokensFrom stop ps

/-- The text of a manuscript. -/
def text (m : Manuscript) : String :=
  String.ofList (chars m.last m.pieces)

/-- The words of a manuscript, each with the bytes that it takes. -/
def tokens (m : Manuscript) : List Token :=
  tokensFrom 0 m.pieces

variable {last : List Char} {p : Piece} {ps : List Piece}

/-- A word stops where the next piece begins, or what stands at the end. -/
theorem stops_chars (hspelled : ∀ q ∈ ps, q.word.Spelled)
    (hfilling : ∀ q ∈ ps, Text.IsFilling q.gap) (hlast : Text.IsFilling last)
    (hjoins : (p :: ps).IsChain Piece.Joins) : p.word.Stops (chars last ps) := by
  cases ps with
  | nil => exact Word.stops_of_endsWord hlast.endsWord_head
  | cons q qs =>
    rw [List.isChain_cons_cons] at hjoins
    rw [chars]
    by_cases hgap : q.gap = []
    · rw [hgap, List.nil_append]
      exact Word.stops_of_mayTouch (hspelled q List.mem_cons_self) (hjoins.1 hgap)
    · apply Word.stops_of_endsWord
      rw [List.head?_append_of_ne_nil _ hgap]
      exact (hfilling q List.mem_cons_self).endsWord_head

/-- The words of pieces are read back, wherever the pieces begin. -/
theorem scan_chars (hspelled : ∀ q ∈ ps, q.word.Spelled)
    (hfilling : ∀ q ∈ ps, Text.IsFilling q.gap) (hlast : Text.IsFilling last)
    (hjoins : ps.IsChain Piece.Joins) (offset : Nat) :
    Stream.scan offset (chars last ps) =
      (tokensFrom offset ps, .eof (offset + Text.byteLength (chars last ps))) := by
  induction ps generalizing offset with
  | nil =>
    have hsplit : Text.splitLayout last = (last, []) := by
      simpa using hlast.isGap [] (by simp)
    rw [Stream.scan_eq, chars, Token.read, hsplit]
    rfl
  | cons p ps ih =>
    have hspelled' := fun q hq => hspelled q (List.mem_cons_of_mem p hq)
    have hfilling' := fun q hq => hfilling q (List.mem_cons_of_mem p hq)
    have hread := Token.read_word (hfilling p List.mem_cons_self).isGap
      (hspelled p List.mem_cons_self) (stops_chars hspelled' hfilling' hlast hjoins) offset
    rw [Stream.scan_eq, chars, hread]
    dsimp only
    rw [ih hspelled' hfilling' hjoins.tail, tokensFrom, Text.byteLength_append,
      Text.byteLength_append]
    simp only [Nat.add_assoc]

/-- **The words of a manuscript are read back**: what is read in its text are its words, in order,
with their kinds, their texts and the bytes that they take, and then the end of the text. -/
theorem ofText_text (m : Manuscript) :
    Stream.ofText m.text = ⟨0, m.tokens, .eof (Text.byteLength m.text.toList)⟩ := by
  have hscan := scan_chars m.spelled m.filling m.last_filling m.joins 0
  rw [Stream.ofText, Stream.ofChars, text, String.toList_ofList, hscan, Nat.zero_add]
  rfl

/-- Words that touch, comments, and text literals that contain what would otherwise be a quote, a
comment or a line break. -/
def specimen : Manuscript where
  pieces := [
    ⟨[], ⟨.keyword .letWord, "let".toList⟩⟩,
    ⟨"//é'\n\t".toList, ⟨.identifier, "let_1".toList⟩⟩,
    ⟨[], ⟨.equals, ['=']⟩⟩,
    ⟨[], ⟨.float, "1.50".toList⟩⟩,
    ⟨[], ⟨.string, "'//é\x22'".toList⟩⟩,
    ⟨[], ⟨.identifier, "x".toList⟩⟩,
    ⟨[], ⟨.semicolon, [';']⟩⟩]
  last := "\x0c\r//\n".toList
  spelled := by
    have hdigits {cs : List Char} (hne : cs ≠ []) (hcs : cs.all Char.isDigit = true) :
        Decimal.IsDigits cs := ⟨hne, List.all_eq_true.mp hcs⟩
    have hfloat : Decimal.IsDecimal "1.50".toList :=
      ⟨['1'], ['5', '0'], hdigits (by simp) rfl, hdigits (by simp) rfl, rfl⟩
    simp only [List.forall_mem_cons]
    exact ⟨.keyword .letWord, .name (by decide), .symbol rfl, .float hfloat,
      @Word.Spelled.string '\x27' ['/', '/', 'é', '\x22'] (.inr rfl) (by decide),
      .name (by decide), .symbol rfl, by simp⟩
  filling := by
    have hcomment : Text.IsFilling "//é'\n\t".toList :=
      @Text.IsFilling.comment ['é', '\x27'] ['\t'] (by decide) (.blank rfl .nil)
    simp only [List.forall_mem_cons]
    exact ⟨.nil, hcomment, .nil, .nil, .nil, .nil, .nil, by simp⟩
  last_filling := .blank rfl (.blank rfl (@Text.IsFilling.comment [] [] (by simp) .nil))
  joins := by simp [Piece.Joins, Token.Kind.mayTouch]

/-- What is read in `specimen`. -/
theorem ofText_specimen :
    Stream.ofText "let//é'\n\tlet_1=1.50'//é\x22'x;\x0c\r//\n" =
      ⟨0, [
        ⟨.keyword .letWord, "let", ⟨0, 3⟩⟩,
        ⟨.identifier, "let_1", ⟨10, 15⟩⟩,
        ⟨.equals, "=", ⟨15, 16⟩⟩,
        ⟨.float, "1.50", ⟨16, 20⟩⟩,
        ⟨.string, "'//é\x22'", ⟨20, 27⟩⟩,
        ⟨.identifier, "x", ⟨27, 28⟩⟩,
        ⟨.semicolon, ";", ⟨28, 29⟩⟩], .eof 34⟩ :=
  ofText_text specimen

end Manuscript

end Blockscript
