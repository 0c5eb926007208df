import Blockscript.Proofs.Printing
import Blockscript.Proofs.ProgramParsing
import Mathlib.Data.List.TakeWhile

/-!
# Reading a text again in other surroundings

A token that was read from a text is read again, with the same kind and the same characters, when
the text is moved to another offset and when another text follows it. The second needs a condition:
a word must stop where it stopped before. For the tokens inside a text that is clear, since the
character after them is the same as before, so the condition is about the last token only.

## Main definitions

* `Word.Begins` : a text begins with a word.
* `Span.shift`, `Token.shift`, `SyntaxError.shift`, `Stream.Ending.shift`, `Stream.shift` : the same
  thing a number of bytes further on.

## Main results

* `Lexeme.begins_of_read` : what is read as a token is a properly written word that stops where the
  token ends.
* `Token.exists_of_read` : a token is read again, whatever follows it that does not continue it.
* `Stream.scan_append_of_scan`, `Stream.scan_append_of_stop` : the tokens of a text up to one of
  them are read again, whatever follows that does not continue the last one.
* `Stream.scan_shift` : the tokens of a text at another offset.
* `Stream.spelled_of_mem_scan` : all tokens of a text are properly written words.
-/

namespace Blockscript

/-! ### Lexemes -/

/-- The text begins with the word, which is properly written and stops where the rest begins. -/
def Word.Begins (w : Word) (cs : List Char) : Prop :=
  ∃ rest, cs = w.text ++ rest ∧ w.Spelled ∧ w.Stops rest

theorem eq_false_of_takeWhile_eq_nil {p : Char → Bool} {cs : List Char}
    (h : cs.takeWhile p = []) : ∀ c ∈ cs.head?, p c = false := by
  cases cs with
  | nil => simp
  | cons d ds =>
    intro c hc
    cases hc
    rw [← Bool.not_eq_true]
    intro hp
    simp [hp] at h

namespace Lexeme

variable {c : Char} {cs text : List Char} {kind : Token.Kind}

/-- The longest number at the front of a text is properly written. -/
theorem spelled_number (hc : c.isDigit = true) :
    Word.Spelled ⟨(number (c :: cs)).1, (number (c :: cs)).2⟩ := by
  have hwhole : Decimal.IsDigits ((c :: cs).takeWhile Char.isDigit) :=
    ⟨by simp [hc], fun d hd => List.mem_takeWhile_imp hd⟩
  rw [number]
  split
  · split
    · exact .integer hwhole
    · next hne =>
      exact .float ⟨_, _, hwhole, ⟨hne, fun d hd => List.mem_takeWhile_imp hd⟩, rfl⟩
  · exact .integer hwhole

theorem stops_number {rest : List Char} (h : ∀ d ∈ rest.head?, spoilsNumber d = false) :
    Word.Stops ⟨(number cs).1, text⟩ rest := by
  rw [number]
  split
  · split <;> exact h
  · exact h

theorem stops_symbol (h : symbolKind? c = some kind) (rest : List Char) :
    Word.Stops ⟨kind, text⟩ rest := by
  rw [symbolKind?] at h
  split_ifs at h <;> cases h <;> trivial

theorem spelled_wordKind (hbegins : ∃ d ds, text = d :: ds ∧ startsWord d = true)
    (hgoesOn : ∀ d ∈ text, continuesWord d = true) : Word.Spelled ⟨wordKind text, text⟩ := by
  rw [wordKind]
  split_ifs with hlet hprint
  · subst hlet
    exact .keyword .letWord
  · subst hprint
    exact .keyword .printWord
  · exact .name ⟨hbegins, hgoesOn, hlet, hprint⟩

theorem continuesWord_of_startsWord (h : startsWord c = true) : continuesWord c = true := by
  rw [startsWord, Bool.or_eq_true] at h
  rw [continuesWord, Char.isAlphanum, Bool.or_eq_true, Bool.or_eq_true]
  exact h.imp_left .inl

theorem begins_of_readNumber (hc : c.isDigit = true)
    (h : readNumber (c :: cs) = .token kind text) :
    Word.Begins ⟨kind, text⟩ (c :: cs) := by
  obtain ⟨rest, hrest⟩ := number_prefix (c :: cs)
  have hspelled := @spelled_number c cs hc
  rw [readNumber] at h
  split at h
  · next hnone =>
    cases h
    have hdrop : (c :: cs).drop (number (c :: cs)).2.length = rest := by
      rw [← congrArg (List.drop (number (c :: cs)).2.length) hrest, List.drop_left]
    rw [hdrop] at hnone
    exact ⟨rest, hrest.symm, hspelled, stops_number (eq_false_of_takeWhile_eq_nil hnone)⟩
  · cases h

theorem begins_of_readWord (hc : startsWord c = true)
    (h : readWord (c :: cs) = .token kind text) :
    Word.Begins ⟨kind, text⟩ (c :: cs) := by
  rw [readWord] at h
  split at h
  · next hnone =>
    cases h
    refine ⟨_, List.takeWhile_append_dropWhile.symm, spelled_wordKind ?_ ?_, ?_⟩
    · refine ⟨c, cs.takeWhile continuesWord, ?_, hc⟩
      rw [List.takeWhile_cons_of_pos (continuesWord_of_startsWord hc)]
    · exact fun d hd => List.mem_takeWhile_imp hd
    · apply Word.stops_of_endsWord
      intro d hd
      simpa using eq_false_of_takeWhile_eq_nil hnone d hd
  · cases h

theorem begins_of_readString (hc : c = '\x22' ∨ c = '\x27')
    (h : readString c cs = .token kind text) :
    Word.Begins ⟨kind, text⟩ (c :: cs) := by
  rw [readString] at h
  split at h
  · cases h
  · next close rest hclose =>
    cases h
    have hcs := List.takeWhile_append_dropWhile (p := (· != c)) (l := cs)
    have hne : c ∉ cs.takeWhile (· != c) := fun hmem => by
      simpa using List.mem_takeWhile_imp hmem
    obtain rfl : close = c := by
      have := List.head?_dropWhile_not (· != c) cs
      rw [hclose] at this
      simpa using this
    refine ⟨rest, ?_, .string hc hne, trivial⟩
    rw [hclose] at hcs
    conv => lhs; rw [← hcs]
    simp

/-- **What is read as a token is a properly written word**, and it stops where the token ends. -/
theorem begins_of_read (h : read c cs = .token kind text) :
    Word.Begins ⟨kind, text⟩ (c :: cs) := by
  rw [read] at h
  split_ifs at h with hdigit hword hquote
  · exact begins_of_readNumber hdigit h
  · exact begins_of_readWord hword h
  · exact begins_of_readString hquote h
  · split at h
    · next hsymbol =>
      cases h
      exact ⟨cs, rfl, .symbol hsymbol, stops_symbol hsymbol cs⟩
    · cases h

end Lexeme

/-! ### Layout -/

namespace Text

theorem splitLayoutFrom_true_ne_nil {cs gap rest : List Char} {c : Char}
    (h : splitLayoutFrom true (c :: cs) = (gap, rest)) : ∃ gap', gap = c :: gap' := by
  rw [splitLayoutFrom, if_pos rfl] at h
  exact ⟨_, (congrArg Prod.fst h).symm⟩

/-- What was cut off in front of a character is cut off in front of any token. -/
theorem splitLayoutFrom_of_cons {inComment : Bool} {cs gap rest cs' : List Char} {c : Char}
    (h : splitLayoutFrom inComment cs = (gap, c :: rest))
    (hcs' : ∀ d ∈ cs'.head?, beginsToken d) :
    splitLayoutFrom inComment (gap ++ cs') = (gap, cs') := by
  induction cs generalizing inComment gap with
  | nil => simp [splitLayoutFrom] at h
  | cons d ds ih =>
    rw [splitLayoutFrom] at h
    split_ifs at h with hcomment hlayout hslash
    · cases hrec : splitLayoutFrom (d != '\n') ds with
      | mk gap₁ rest₁ =>
        simp only [hrec, Prod.mk.injEq] at h
        obtain ⟨rfl, rfl⟩ := h
        rw [List.cons_append, splitLayoutFrom, if_pos hcomment, ih hrec]
    · cases hrec : splitLayoutFrom false ds with
      | mk gap₁ rest₁ =>
        simp only [hrec, Prod.mk.injEq] at h
        obtain ⟨rfl, rfl⟩ := h
        rw [List.cons_append, splitLayoutFrom, if_neg hcomment, if_pos hlayout, ih hrec]
    · cases hrec : splitLayoutFrom true ds with
      | mk gap₁ rest₁ =>
        simp only [hrec, Prod.mk.injEq] at h
        obtain ⟨rfl, rfl⟩ := h
        -- The second slash belongs to the layout, so it is still there.
        obtain ⟨hd, hhead⟩ := hslash
        obtain ⟨ds', rfl⟩ := List.head?_eq_some_iff.mp hhead
        obtain ⟨gap₂, rfl⟩ := splitLayoutFrom_true_ne_nil hrec
        rw [List.cons_append, splitLayoutFrom, if_neg hcomment, if_neg hlayout,
          if_pos ⟨hd, by simp⟩, ih hrec]
    · cases h
      obtain rfl : inComment = false := by simpa using hcomment
      exact isGap_of_blanks (by simp) cs' hcs'

theorem isGap_of_splitLayout {cs gap rest : List Char} {c : Char}
    (h : splitLayout cs = (gap, c :: rest)) : IsGap gap :=
  fun _ hcs' => splitLayoutFrom_of_cons h hcs'

end Text

/-! ### Tokens -/

/-- Whatever a word is, it stops at the end of the text. -/
theorem Word.stops_nil (w : Word) : w.Stops [] :=
  stops_of_endsWord (by simp)

/-- A word stops or goes on according to the next character. -/
theorem Word.Stops.of_head? {w : Word} {rest rest' : List Char} (h : w.Stops rest)
    (hhead : rest'.head? = rest.head?) : w.Stops rest' := by
  rw [Stops] at h ⊢
  rwa [hhead]

/-- **A token is a properly written word** after some layout, and stops where it ends. It is read
again if another text follows at which it stops as well. -/
theorem Token.exists_of_read {offset : Nat} {cs rest : List Char} {t : Token}
    (h : read offset cs = .token t rest) :
    ∃ gap, cs = gap ++ (t.word.text ++ rest) ∧ t.word.Spelled ∧ t.word.Stops rest ∧
      t.span.start = offset + Text.byteLength gap ∧
      t.span.stop = t.span.start + Text.byteLength t.word.text ∧
      ∀ rest', t.word.Stops rest' →
        read offset (gap ++ (t.word.text ++ rest')) = .token t rest' := by
  have hcs := Text.splitLayout_append cs
  rw [read] at h
  split at h
  · cases h
  · next c ds hsplit =>
    split at h
    · next kind text hread =>
      cases h
      obtain ⟨rest, hrest, hspelled, hstops⟩ := Lexeme.begins_of_read hread
      have hdrop : (c :: ds).drop text.length = rest := by rw [hrest, List.drop_left]
      have hgap : Text.IsGap (Text.splitLayout cs).1 :=
        Text.isGap_of_splitLayout (Prod.ext rfl hsplit)
      rw [hsplit, hrest] at hcs
      simp only [word, String.toList_ofList, hdrop, true_and]
      refine ⟨_, hcs.symm, hspelled, hstops, rfl, fun rest' hstops' => ?_⟩
      exact Token.read_word hgap hspelled hstops' offset
    · cases h

theorem Text.byteLength_pos {cs : List Char} (h : cs ≠ []) : 0 < byteLength cs := by
  obtain ⟨c, cs, rfl⟩ := List.exists_cons_of_ne_nil h
  rw [byteLength_cons]
  have := c.utf8Size_pos
  omega

/-- A text is cut in only one way at an offset. -/
theorem Text.append_inj_of_byteLength {pre pre' rest rest' : List Char}
    (h : pre ++ rest = pre' ++ rest') (hlength : byteLength pre = byteLength pre') :
    pre = pre' ∧ rest = rest' := by
  have hdrop := dropBytes?_byteLength_append pre rest
  rw [h, hlength, dropBytes?_byteLength_append, Option.some.injEq] at hdrop
  subst hdrop
  exact ⟨List.append_cancel_right h, rfl⟩

theorem Word.Spelled.text_ne_nil {w : Word} (h : w.Spelled) : w.text ≠ [] := by
  obtain ⟨c, cs, htext, -, -⟩ := h.read w.stops_nil
  simp [htext]

/-! ### The tokens of a text -/

namespace Stream

theorem scan_eq (offset : Nat) (cs : List Char) :
    scan offset cs = match Token.read offset cs with
      | .token t rest => (t :: (scan t.span.stop rest).1, (scan t.span.stop rest).2)
      | .eof size => ([], .eof size)
      | .fault cause span => ([], .fault cause span) := by
  rw [scan]
  split <;> simp_all

/-- The first token, and those after it. -/
theorem exists_read_of_scan {offset : Nat} {cs : List Char} {t : Token} {ts : List Token}
    (h : (scan offset cs).1 = t :: ts) :
    ∃ rest, Token.read offset cs = .token t rest ∧ (scan t.span.stop rest).1 = ts := by
  rw [scan_eq] at h
  split at h
  · next t' rest hread =>
    cases h
    exact ⟨rest, hread, rfl⟩
  · cases h
  · cases h

/-- **The tokens of a text up to one of them** are read again when another text follows, provided
that the last of them still stops there. -/
theorem scan_append_of_scan {offset : Nat} {cs : List Char} {us vs : List Token} {t : Token}
    (h : (scan offset cs).1 = us ++ t :: vs) :
    ∃ pre rest, cs = pre ++ rest ∧ pre ≠ [] ∧ t.span.stop = offset + Text.byteLength pre ∧
      t.word.Spelled ∧ t.word.Stops rest ∧ ∀ rest', t.word.Stops rest' →
        scan offset (pre ++ rest') =
          (us ++ t :: (scan t.span.stop rest').1, (scan t.span.stop rest').2) := by
  induction us generalizing offset cs with
  | nil =>
    obtain ⟨rest, hread, -⟩ := exists_read_of_scan h
    obtain ⟨gap, rfl, hspelled, hstops, hstart, hstop, hagain⟩ := Token.exists_of_read hread
    refine ⟨gap ++ t.word.text, rest, by simp, by simp [hspelled.text_ne_nil], ?_, hspelled, hstops,
      ?_⟩
    · rw [Text.byteLength_append]
      omega
    · intro rest' hstops'
      rw [List.append_assoc, scan_eq, hagain rest' hstops']
      rfl
  | cons u us ih =>
    obtain ⟨rest, hread, hrest⟩ := exists_read_of_scan h
    obtain ⟨gap, rfl, hspelled, hstops, hstart, hstop, hagain⟩ := Token.exists_of_read hread
    obtain ⟨pre, rest, rfl, hne, hpre, htspelled, htstops, hscan⟩ := ih hrest
    refine ⟨gap ++ (u.word.text ++ pre), rest, by simp, by simp [hne], ?_, htspelled, htstops, ?_⟩
    · rw [Text.byteLength_append, Text.byteLength_append]
      omega
    · intro rest' hstops'
      -- The next character belongs to a later token, so it has not changed.
      have hhead : (pre ++ rest').head? = (pre ++ rest).head? := by
        obtain ⟨c, cs, rfl⟩ := List.exists_cons_of_ne_nil hne
        rfl
      have hread' := hagain (pre ++ rest') (hstops.of_head? hhead)
      rw [List.append_assoc, List.append_assoc, scan_eq, hread']
      simp only [hscan rest' hstops', List.cons_append]

@[simp] theorem scan_nil (offset : Nat) : scan offset [] = ([], .eof offset) := by
  rw [scan_eq]
  rfl

/-- The tokens of a text up to one that ends with `pre`. -/
theorem scan_append_of_stop {offset : Nat} {pre rest : List Char} {us vs : List Token} {t : Token}
    (h : (scan offset (pre ++ rest)).1 = us ++ t :: vs)
    (hstop : t.span.stop = offset + Text.byteLength pre) :
    t.word.Stops rest ∧ ∀ rest', t.word.Stops rest' → scan offset (pre ++ rest') =
      (us ++ t :: (scan t.span.stop rest').1, (scan t.span.stop rest').2) := by
  obtain ⟨pre', rest', heq, -, hstop', -, hstops, hscan⟩ := scan_append_of_scan h
  obtain ⟨rfl, rfl⟩ := Text.append_inj_of_byteLength heq (by omega)
  exact ⟨hstops, hscan⟩

/-- All tokens of a text are properly written words. -/
theorem spelled_of_mem_scan {offset : Nat} {cs : List Char} {t : Token}
    (h : t ∈ (scan offset cs).1) : t.word.Spelled := by
  obtain ⟨us, vs, heq⟩ := List.append_of_mem h
  obtain ⟨pre, rest, -, -, -, hspelled, -, -⟩ := scan_append_of_scan heq
  exact hspelled

/-- The tokens of a text, and its end, lie where the text lies. -/
theorem le_of_scan (offset : Nat) (cs : List Char) :
    (∀ t ∈ (scan offset cs).1, offset ≤ t.span.start ∧ t.span.start < t.span.stop) ∧
      ∀ size, (scan offset cs).2 = .eof size → offset ≤ size := by
  rw [scan_eq]
  split
  · next t rest hread =>
    have hlt := Token.length_lt_of_read hread
    obtain ⟨gap, -, hspelled, -, hstart, hstop, -⟩ := Token.exists_of_read hread
    have hpos := Text.byteLength_pos hspelled.text_ne_nil
    obtain ⟨htokens, hending⟩ := le_of_scan t.span.stop rest
    constructor
    · intro u hu
      rcases List.mem_cons.mp hu with rfl | hu
      · omega
      · have := htokens u hu
        omega
    · intro size hsize
      have := hending size hsize
      omega
  · next size hread =>
    refine ⟨by simp, fun size' hsize => ?_⟩
    cases hsize
    rw [Token.read] at hread
    split at hread
    · cases hread
      omega
    · split at hread <;> cases hread
  · simp
termination_by cs.length

end Stream

/-! ### The same text at another offset -/

/-- The span `n` bytes further on. -/
def Span.shift (n : Nat) (s : Span) : Span :=
  ⟨n + s.start, n + s.stop⟩

/-- The token `n` bytes further on. -/
def Token.shift (n : Nat) (t : Token) : Token :=
  { t with span := t.span.shift n }

/-- The error `n` bytes further on. -/
def SyntaxError.shift (n : Nat) (e : SyntaxError) : SyntaxError :=
  { e with span := e.span.shift n }

/-- The end of a stream `n` bytes further on. -/
def Stream.Ending.shift (n : Nat) : Ending → Ending
  | .eof size => .eof (n + size)
  | .fault cause span => .fault cause (span.shift n)

/-- The stream `n` bytes further on. -/
def Stream.shift (n : Nat) (s : Stream) : Stream :=
  ⟨n + s.start, s.tokens.map (Token.shift n), s.ending.shift n⟩

/-- The reading `n` bytes further on. -/
def Token.Reading.shift (n : Nat) : Reading → Reading
  | .token t rest => .token (t.shift n) rest
  | .eof size => .eof (n + size)
  | .fault cause span => .fault cause (span.shift n)

theorem Token.read_shift (n offset : Nat) (cs : List Char) :
    read (n + offset) cs = (read offset cs).shift n := by
  simp only [read, Nat.add_assoc]
  split
  · rfl
  · split <;> rfl

/-- The tokens of a text at another offset. -/
theorem Stream.scan_shift (n offset : Nat) (cs : List Char) :
    scan (n + offset) cs =
      ((scan offset cs).1.map (Token.shift n), (scan offset cs).2.shift n) := by
  rw [scan_eq, Token.read_shift, scan_eq offset]
  cases hread : Token.read offset cs with
  | token t rest =>
    have hlt := Token.length_lt_of_read hread
    have hrest := scan_shift n t.span.stop rest
    simp only [Token.Reading.shift, Token.shift, Span.shift, hrest, List.map_cons]
  | eof size => rfl
  | fault cause span => rfl
termination_by cs.length

theorem Stream.ofChars_shift (n : Nat) (cs : List Char) :
    ofChars n cs = (ofChars 0 cs).shift n := by
  rw [ofChars, ofChars, shift, ← Nat.add_zero n, scan_shift]
  rfl

end Blockscript
