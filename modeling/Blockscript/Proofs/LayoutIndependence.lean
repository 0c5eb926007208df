import Blockscript.Proofs.Comparison
import Blockscript.Proofs.Rescanning

/-!
# Layout does not matter

A program is a matter of words: two texts with the same words, which end alike, are read as the same
program, or are refused for the same reason. Only the places that are blamed may differ. Blanks,
line breaks and comments are not words, so the layout between two tokens can be replaced by any
other.

What follows a token could continue it, so layout may be removed only if the tokens on its two sides
stay apart. That is the condition `Stream.BreaksAt`, which is asked of both texts.

## Main definitions

* `Stream.SameWords` : the streams have the same words and end alike.
* `Comparison.words` : streams with the same words, errors with the same cause.
* `Stream.BreaksAt` : no token reaches across an offset of a text.

## Main results

* `Program.mapError_cause_parse_eq` : texts with the same words are read alike.
* `Stream.sameWords_of_layout` : replacing the layout after a token keeps the words.
* `Program.parse_layout_independent` : both together.
-/

namespace Blockscript

/-- The fault at which the tokens end, if they do not end with the text. -/
def Stream.Ending.cause? : Ending → Option LexicalCause
  | .eof _ => none
  | .fault cause _ => some cause

/-- The streams have the same words, and both end with the text or at the same fault. -/
structure Stream.SameWords (s s' : Stream) : Prop where
  words : s.tokens.map Token.word = s'.tokens.map Token.word
  ending : s.ending.cause? = s'.ending.cause?

theorem Stream.SameWords.symm {s s' : Stream} (h : s.SameWords s') : s'.SameWords s :=
  ⟨h.words.symm, h.ending.symm⟩

theorem Stream.SameWords.trans {s s' s'' : Stream} (h : s.SameWords s') (h' : s'.SameWords s'') :
    s.SameWords s'' :=
  ⟨h.words.trans h'.words, h.ending.trans h'.ending⟩

instance (s s' : Stream) : Decidable (s.SameWords s') :=
  decidable_of_iff (s.tokens.map Token.word = s'.tokens.map Token.word ∧
    s.ending.cause? = s'.ending.cause?) ⟨fun h => ⟨h.1, h.2⟩, fun h => ⟨h.1, h.2⟩⟩

/-! ### Parsing -/

theorem Token.kind_text_of_word_eq {t t' : Token} (h : t.word = t'.word) :
    t.kind = t'.kind ∧ t.text = t'.text :=
  ⟨congrArg Word.kind h, String.toList_inj.mp (congrArg Word.text h)⟩

/-- Streams with the same words offer tokens with the same word, or the same fault. -/
theorem Stream.SameWords.next {s s' : Stream} (h : s.SameWords s') :
    (∃ e e', s.next = .error e ∧ s'.next = .error e' ∧ e.cause = e'.cause) ∨
      ∃ t t' r r', s.next = .ok (t, r) ∧ s'.next = .ok (t', r') ∧ t.word = t'.word ∧
        r.SameWords r' := by
  obtain ⟨start, tokens, ending⟩ := s
  obtain ⟨start', tokens', ending'⟩ := s'
  obtain ⟨hwords, hending⟩ := h
  dsimp only at hwords hending
  cases tokens with
  | cons t ts =>
    obtain ⟨t', ts', rfl, hword, hrest⟩ := List.map_eq_cons_iff.mp hwords.symm
    exact .inr ⟨t, t', _, _, rfl, rfl, hword.symm, hrest.symm, hending⟩
  | nil =>
    obtain rfl : tokens' = [] := List.map_eq_nil_iff.mp hwords.symm
    cases ending with
    | eof size =>
      cases ending' with
      | eof size' => exact .inr ⟨.eof size, .eof size', _, _, rfl, rfl, rfl, rfl, rfl⟩
      | fault cause' span' => simp [Ending.cause?] at hending
    | fault cause span =>
      cases ending' with
      | eof size' => simp [Ending.cause?] at hending
      | fault cause' span' =>
        obtain rfl : cause = cause' := by simpa [Ending.cause?] using hending
        exact .inl ⟨_, _, rfl, rfl, rfl⟩

/-- Streams with the same words, which agree to their ends. -/
def Comparison.words : Comparison :=
  throughout Stream.SameWords (fun e e' => e.cause = e'.cause)
    (fun {s s'} h => by
      refine h.next.imp_right ?_
      rintro ⟨t, t', r, r', hn, hn', hword, hr⟩
      obtain ⟨hkind, htext⟩ := Token.kind_text_of_word_eq hword
      refine ⟨t, t', r, r', hn, hn', hkind, htext, fun cause => ?_, hr⟩
      rw [Token.reject, Token.reject, htext])
    (fun _ _ => rfl)

theorem Comparison.Verdict.mapError_cause_eq {α : Type} {x y : Except SyntaxError α}
    (h : words.Verdict x y) : x.mapError SyntaxError.cause = y.mapError SyntaxError.cause := by
  cases h with
  | ok a => rfl
  | error h => exact congrArg Except.error h
  | pastOk h => exact h.elim
  | pastError h => exact h.elim

/-- **Texts with the same words are read alike.** -/
theorem Program.mapError_cause_parse_eq {text text' : String}
    (h : (Stream.ofText text).SameWords (Stream.ofText text')) (limit : Nat) :
    (parse text limit).mapError SyntaxError.cause =
      (parse text' limit).mapError SyntaxError.cause :=
  (verdict_statements (Stmt.faithful_parserWithin limit) Comparison.words h).mapError_cause_eq

/-! ### Replacing layout -/

namespace Stream

/-- No token reaches across the offset: the text begins there, or a token ends there. -/
def BreaksAt (text : String) (offset : Nat) : Prop :=
  offset = 0 ∨ ∃ t ∈ (ofText text).tokens, t.span.stop = offset

instance (text : String) (offset : Nat) : Decidable (BreaksAt text offset) :=
  inferInstanceAs (Decidable (_ ∨ _))

theorem sameWords_shift (n : Nat) (s : Stream) : (s.shift n).SameWords s := by
  constructor
  · simp only [shift, List.map_map]
    rfl
  · cases h : s.ending <;> simp only [shift, h] <;> rfl

/-- The words of a text do not depend on where it begins. -/
theorem sameWords_ofChars (offset offset' : Nat) (cs : List Char) :
    (ofChars offset cs).SameWords (ofChars offset' cs) := by
  rw [ofChars_shift offset, ofChars_shift offset']
  exact (sameWords_shift _ _).trans (sameWords_shift _ _).symm

/-- Nor do they depend on the layout in front. -/
theorem sameWords_of_splitLayout {cs cs' : List Char}
    (h : (Text.splitLayout cs).2 = (Text.splitLayout cs').2) (offset : Nat) :
    (ofChars offset cs).SameWords (ofChars offset cs') := by
  rw [ofChars, ofChars, scan_eq offset cs, scan_eq offset cs', Token.read, Token.read, h]
  cases (Text.splitLayout cs').2 with
  | nil => exact ⟨rfl, rfl⟩
  | cons c ds =>
    dsimp only
    cases Lexeme.read c ds with
    | token kind text =>
      -- The tokens after the first are those of one text at two offsets.
      obtain ⟨hwords, hending⟩ := sameWords_ofChars
        (offset + Text.byteLength (Text.splitLayout cs).1 + Text.byteLength text)
        (offset + Text.byteLength (Text.splitLayout cs').1 + Text.byteLength text)
        ((c :: ds).drop text.length)
      refine ⟨?_, hending⟩
      dsimp only
      rw [List.map_cons, List.map_cons]
      exact congrArg₂ List.cons rfl hwords
    | fault cause text => exact ⟨rfl, rfl⟩

/-- A break after `pre` cuts the tokens in two: those before it are the tokens of `pre` alone. -/
theorem scan_of_breaksAt {pre rest : String}
    (h : BreaksAt (pre ++ rest) (Text.byteLength pre.toList)) :
    scan 0 (pre.toList ++ rest.toList) =
      ((scan 0 pre.toList).1 ++ (scan (Text.byteLength pre.toList) rest.toList).1,
        (scan (Text.byteLength pre.toList) rest.toList).2) := by
  by_cases hpre : pre.toList = []
  · simp [hpre]
  obtain ⟨t, ht, hstop⟩ := h.resolve_left (by have := Text.byteLength_pos hpre; omega)
  obtain ⟨us, vs, heq⟩ := List.append_of_mem ht
  rw [ofText, String.toList_append] at heq
  obtain ⟨hstops, hscan⟩ := scan_append_of_stop heq (by omega)
  have halone := hscan [] t.word.stops_nil
  rw [List.append_nil, scan_nil] at halone
  rw [hscan rest.toList hstops, halone, hstop, List.append_assoc]
  rfl

/-- **Replacing the layout after a token** keeps the words. -/
theorem sameWords_of_layout {pre rest rest' : String}
    (hbreak : BreaksAt (pre ++ rest) (Text.byteLength pre.toList))
    (hbreak' : BreaksAt (pre ++ rest') (Text.byteLength pre.toList))
    (h : (Text.splitLayout rest.toList).2 = (Text.splitLayout rest'.toList).2) :
    (ofText (pre ++ rest)).SameWords (ofText (pre ++ rest')) := by
  have hrest := sameWords_of_splitLayout h (Text.byteLength pre.toList)
  rw [ofText, ofText, String.toList_append, String.toList_append, ofChars, ofChars,
    scan_of_breaksAt hbreak, scan_of_breaksAt hbreak']
  refine ⟨?_, hrest.ending⟩
  dsimp only
  rw [List.map_append, List.map_append]
  exact congrArg _ hrest.words

end Stream

/-- **Layout does not matter.** Texts with the same words, which end alike, are read as the same
program or refused for the same reason, whatever the limit. So layout, which is not words, can be
replaced wherever no token reaches across. -/
theorem Program.parse_layout_independent (limit : Nat) :
    (∀ text text' : String, (Stream.ofText text).SameWords (Stream.ofText text') →
      (parse text limit).mapError SyntaxError.cause =
        (parse text' limit).mapError SyntaxError.cause) ∧
    ∀ pre rest rest' : String,
      Stream.BreaksAt (pre ++ rest) (Text.byteLength pre.toList) →
      Stream.BreaksAt (pre ++ rest') (Text.byteLength pre.toList) →
      (Text.splitLayout rest.toList).2 = (Text.splitLayout rest'.toList).2 →
      (parse (pre ++ rest) limit).mapError SyntaxError.cause =
        (parse (pre ++ rest') limit).mapError SyntaxError.cause := by
  constructor
  · intro text text' h
    exact mapError_cause_parse_eq h limit
  · intro pre rest rest' hbreak hbreak' h
    exact mapError_cause_parse_eq (Stream.sameWords_of_layout hbreak hbreak' h) limit

/-- Two statements with blanks at will and a comment between them. -/
def Program.spread : String :=
  "let f a = a ; // the first\n\tprint f 1 ;"

/-- The words of `spread` with no more blanks than they need. -/
def Program.dense : String :=
  "let f a=a;print f 1;"

/-- The two are read as one program; and a text that is refused at a semicolon is still refused
there, for the same reason, when a comment stands in front of it. -/
theorem Program.parse_spread_eq_dense :
    (Stream.ofText spread).SameWords (Stream.ofText dense) ∧
      (parse spread 3).mapError SyntaxError.cause = (parse dense 3).mapError SyntaxError.cause ∧
      Stream.BreaksAt ("print 1+" ++ ";") (Text.byteLength "print 1+".toList) ∧
      Stream.BreaksAt ("print 1+" ++ "// none\n ;") (Text.byteLength "print 1+".toList) ∧
      (Text.splitLayout ";".toList).2 = (Text.splitLayout "// none\n ;".toList).2 ∧
      (parse ("print 1+" ++ ";") 3).mapError SyntaxError.cause =
        (parse ("print 1+" ++ "// none\n ;") 3).mapError SyntaxError.cause := by
  have hwords : (Stream.ofText spread).SameWords (Stream.ofText dense) := by decide +kernel
  have hbreak : Stream.BreaksAt ("print 1+" ++ ";") (Text.byteLength "print 1+".toList) := by
    decide +kernel
  have hbreak' : Stream.BreaksAt ("print 1+" ++ "// none\n ;")
      (Text.byteLength "print 1+".toList) := by
    decide +kernel
  have hlayout : (Text.splitLayout ";".toList).2 = (Text.splitLayout "// none\n ;".toList).2 := by
    decide +kernel
  obtain ⟨hsame, hreplace⟩ := parse_layout_independent 3
  exact ⟨hwords, hsame _ _ hwords, hbreak, hbreak', hlayout, hreplace _ _ _ hbreak hbreak' hlayout⟩

end Blockscript
