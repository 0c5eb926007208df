import Blockscript.Proofs.Rescanning
import Blockscript.Proofs.ViablePrefix

/-!
# Where a stream pauses

A stream begins at an offset of a text, and when some of its tokens have been taken, what is left
begins at another. Here it is said what these offsets are: a stream pauses where it begins and where
one of its tokens ends, always further on, and what is left there is the stream of the rest of the
text. The tokens that have been taken lie between the two offsets, and the text of each stands where
its span says.

## Main definitions

* `Text.IsBoundary` : the offset lies between two characters of a text.
* `Text.slice?`, `Text.StandsAt` : the piece of a text that a span covers, as a function and as a
  relation.
* `Stream.IsOf` : the stream is what is left of a text where the stream begins.
* `Stream.Reaches` : what is left of a stream when some of its tokens have been taken.
* `Stream.PausesAt` : the offsets at which that can begin.
* `Stream.Reports` : the errors that can come of a stream.

## Main results

* `Stream.IsOf.next` : where the next token lies.
* `Stream.Reaches.isOf`, `Stream.Reaches.start_lt` : what is left is left of the same text, further
  on.
* `Stream.Reaches.exists_tokens` : the tokens that have been taken.
-/

namespace Blockscript

/-! ### Pieces of a text -/

namespace Text

/-- The offset lies between two characters of the text, or at one of its ends. -/
def IsBoundary (text : String) (offset : Nat) : Prop :=
  (dropBytes? offset text.toList).isSome = true

instance (text : String) (offset : Nat) : Decidable (IsBoundary text offset) :=
  inferInstanceAs (Decidable (_ = true))

theorem isBoundary_iff {text : String} {offset : Nat} :
    IsBoundary text offset ↔ ∃ pre rest, text.toList = pre ++ rest ∧ byteLength pre = offset := by
  rw [IsBoundary, Option.isSome_iff_exists]
  constructor
  · rintro ⟨rest, hrest⟩
    obtain ⟨pre, htext, hpre⟩ := dropBytes?_eq_some_iff.mp hrest
    exact ⟨pre, rest, htext, hpre⟩
  · rintro ⟨pre, rest, htext, hpre⟩
    exact ⟨rest, dropBytes?_eq_some_iff.mpr ⟨pre, htext, hpre⟩⟩

/-- The piece of a text that a span covers. There is none if an end of the span lies beyond the end
of the text or inside a character, or if the ends are in the wrong order. -/
def slice? (cs : List Char) (span : Span) : Option (List Char) := do
  let piece ← dropBytes? span.start cs
  let rest ← dropBytes? span.stop cs
  if span.start ≤ span.stop then some (piece.take (piece.length - rest.length)) else none

theorem slice?_byteLength (pre piece rest : List Char) :
    slice? (pre ++ (piece ++ rest)) ⟨byteLength pre, byteLength pre + byteLength piece⟩ =
      some piece := by
  have hstop : dropBytes? (byteLength pre + byteLength piece) (pre ++ (piece ++ rest)) =
      some rest := by
    rw [← byteLength_append, ← List.append_assoc, dropBytes?_byteLength_append]
  simp [slice?, dropBytes?_byteLength_append, hstop]

/-- The span covers this piece of the text, and `rest` is what follows it. -/
def StandsAt (text : String) (span : Span) (piece rest : List Char) : Prop :=
  ∃ pre, text.toList = pre ++ (piece ++ rest) ∧
    span = ⟨byteLength pre, byteLength pre + byteLength piece⟩

/-- A piece of a text lies between characters, inside the text, and can be cut out. -/
theorem StandsAt.bounds {text : String} {span : Span} {piece rest : List Char}
    (h : StandsAt text span piece rest) :
    IsBoundary text span.start ∧ IsBoundary text span.stop ∧ span.start ≤ span.stop ∧
      span.stop ≤ byteLength text.toList ∧ slice? text.toList span = some piece ∧
      dropBytes? span.stop text.toList = some rest := by
  obtain ⟨pre, htext, rfl⟩ := h
  have hcut : text.toList = (pre ++ piece) ++ rest := by rw [htext, List.append_assoc]
  have hlen : byteLength (pre ++ piece) = byteLength pre + byteLength piece :=
    byteLength_append pre piece
  refine ⟨isBoundary_iff.mpr ⟨pre, piece ++ rest, htext, rfl⟩,
    isBoundary_iff.mpr ⟨pre ++ piece, rest, hcut, hlen⟩, Nat.le_add_right _ _, ?_,
    by rw [htext, slice?_byteLength], dropBytes?_eq_some_iff.mpr ⟨pre ++ piece, hcut, hlen⟩⟩
  show byteLength pre + byteLength piece ≤ byteLength text.toList
  rw [hcut, byteLength_append, hlen]
  omega

end Text

/-! ### What is left of a text -/

/-- The text that a grammatical error carries, which should be that of the token to blame. -/
def GrammarCause.carried? : GrammarCause → Option String
  | .unclosedParen found | .invalidExpression found | .unknownOperator found
  | .invalidStatement found | .delimiterRequired _ found | .invalidAssignment found
  | .duplicateParameter found | .missingTail found | .integerOverflow found => some found
  | .tooDeep _ => none

namespace Stream

variable {text : String} {s s' r : Stream} {t : Token} {e : SyntaxError}

/-- Taking the first token of a text is reading it. -/
theorem next_ofChars (offset : Nat) (cs : List Char) :
    (ofChars offset cs).next = match Token.read offset cs with
      | .token t rest => .ok (t, ofChars t.span.stop rest)
      | .eof size => .ok (Token.eof size, ofChars size [])
      | .fault cause span => .error ⟨.lexical cause, span⟩ := by
  rw [ofChars, scan_eq]
  cases Token.read offset cs with
  | token t rest => rfl
  | eof size => simp [next, ofChars]
  | fault cause span => rfl

/-- The stream is what is left of the text where the stream begins. -/
def IsOf (text : String) (s : Stream) : Prop :=
  ofText? text s.start = some s

theorem isOf_iff : s.IsOf text ↔ ∃ pre rest, text.toList = pre ++ rest ∧
    Text.byteLength pre = s.start ∧ s = ofChars s.start rest := by
  rw [IsOf, ofText?, Option.map_eq_some_iff]
  constructor
  · rintro ⟨rest, hrest, hs⟩
    obtain ⟨pre, htext, hpre⟩ := Text.dropBytes?_eq_some_iff.mp hrest
    exact ⟨pre, rest, htext, hpre, hs.symm⟩
  · rintro ⟨pre, rest, htext, hpre, hs⟩
    exact ⟨rest, Text.dropBytes?_eq_some_iff.mpr ⟨pre, htext, hpre⟩, hs.symm⟩

theorem IsOf.isBoundary (hs : s.IsOf text) : Text.IsBoundary text s.start := by
  obtain ⟨pre, rest, htext, hpre, -⟩ := isOf_iff.mp hs
  exact Text.isBoundary_iff.mpr ⟨pre, rest, htext, hpre⟩

/-- Wherever a text can be cut there is a stream of what follows. -/
theorem exists_isOf {offset : Nat} (h : Text.IsBoundary text offset) :
    ∃ s, ofText? text offset = some s ∧ s.IsOf text ∧ s.start = offset := by
  obtain ⟨pre, rest, htext, hpre⟩ := Text.isBoundary_iff.mp h
  have hs : ofText? text offset = some (ofChars offset rest) := by
    rw [ofText?, Text.dropBytes?_eq_some_iff.mpr ⟨pre, htext, hpre⟩]
    rfl
  exact ⟨ofChars offset rest, hs, hs, rfl⟩

theorem isOf_ofText (text : String) : (ofText text).IsOf text :=
  isOf_iff.mpr ⟨[], text.toList, rfl, rfl, rfl⟩

/-- A stream begins within its text. -/
theorem IsOf.start_le (hs : s.IsOf text) : s.start ≤ Text.byteLength text.toList := by
  obtain ⟨pre, rest, htext, hpre, -⟩ := isOf_iff.mp hs
  rw [htext, Text.byteLength_append]
  omega

theorem IsOf.eofFree (hs : s.IsOf text) : s.EofFree := by
  obtain ⟨-, rest, -, -, hs⟩ := isOf_iff.mp hs
  rw [hs]
  exact fun _ => kind_ne_eof_of_mem_scan

/-- The next token lies where its span says, and the stream after it is left of the same text. -/
theorem IsOf.next (hs : s.IsOf text) (hn : s.next = .ok (t, r)) (ht : t.kind ≠ .eof) :
    r.IsOf text ∧ r.start = t.span.stop ∧ s.start ≤ t.span.start ∧ t.span.start < t.span.stop ∧
      t.word.Spelled ∧ ∃ rest, Text.StandsAt text t.span t.text.toList rest := by
  obtain ⟨pre, rest, htext, hpre, hs⟩ := isOf_iff.mp hs
  rw [hs, next_ofChars] at hn
  cases hread : Token.read s.start rest with
  | token u rest' =>
    rw [hread] at hn
    cases hn
    obtain ⟨gap, rfl, hspelled, -, hstart, hstop, -⟩ := Token.exists_of_read hread
    have hpos := Text.byteLength_pos hspelled.text_ne_nil
    have hcut : text.toList = (pre ++ gap) ++ (t.text.toList ++ rest') := by
      rw [htext, List.append_assoc]
      rfl
    have hspan : t.span = ⟨Text.byteLength (pre ++ gap),
        Text.byteLength (pre ++ gap) + Text.byteLength t.text.toList⟩ := by
      rw [Text.byteLength_append, hpre, ← hstart]
      exact congrArg (Span.mk t.span.start) hstop
    refine ⟨isOf_iff.mpr ⟨pre ++ (gap ++ t.text.toList), rest', ?_, ?_, rfl⟩, rfl, ?_, ?_, hspelled,
      rest', pre ++ gap, hcut, hspan⟩
    · rw [hcut]
      simp
    · show Text.byteLength (pre ++ (gap ++ t.text.toList)) = t.span.stop
      rw [hspan]
      simp [Nat.add_assoc]
    · omega
    · omega
  | eof size =>
    rw [hread] at hn
    cases hn
    exact absurd rfl ht
  | fault cause span =>
    rw [hread] at hn
    cases hn

/-- `r` is what is left of `s` when some tokens have been taken, none of them the end of the
text. -/
inductive Reaches : Stream → Stream → Prop where
  | refl (s : Stream) : Reaches s s
  | step {s s' r : Stream} {t : Token} (hn : s.next = .ok (t, s')) (ht : t.kind ≠ .eof)
    (h : Reaches s' r) : Reaches s r

namespace Reaches

theorem trans (h : s.Reaches s') (h' : s'.Reaches r) : s.Reaches r := by
  induction h with
  | refl s => exact h'
  | step hn ht _ ih => exact .step hn ht (ih h')

theorem next (h : s.Reaches s') (hn : s'.next = .ok (t, r)) (ht : t.kind ≠ .eof) : s.Reaches r :=
  h.trans (.step hn ht (.refl r))

/-- What is left of a text is left of it further on. -/
theorem isOf (h : s.Reaches r) (hs : s.IsOf text) : r.IsOf text := by
  induction h with
  | refl s => exact hs
  | step hn ht _ ih => exact ih (hs.next hn ht).1

/-- A stream pauses where it begins or where one of its tokens ends. -/
theorem start_eq (h : s.Reaches r) (hs : s.IsOf text) :
    r.start = s.start ∨ ∃ t ∈ s.tokens, t.span.stop = r.start := by
  induction h with
  | refl s => exact .inl rfl
  | @step s s' r t hn ht h ih =>
    obtain ⟨hs', hstop, -⟩ := hs.next hn ht
    rw [(tokens_of_next hn ht).1]
    rcases ih hs' with heq | ⟨u, hu, heq⟩
    · exact .inr ⟨t, List.mem_cons_self, by rw [heq, hstop]⟩
    · exact .inr ⟨u, List.mem_cons_of_mem t hu, heq⟩

theorem start_le (h : s.Reaches r) (hs : s.IsOf text) : s.start ≤ r.start := by
  induction h with
  | refl s => exact Nat.le_refl _
  | step hn ht _ ih =>
    obtain ⟨hs', hstop, hle, hlt, -, -⟩ := hs.next hn ht
    have := ih hs'
    omega

theorem ending_eq (h : s.Reaches r) : r.ending = s.ending := by
  induction h with
  | refl s => rfl
  | step hn ht _ ih => rw [ih, (tokens_of_next hn ht).2]

/-- The tokens that have been taken lie between the two streams. -/
theorem exists_tokens (h : s.Reaches r) (hs : s.IsOf text) :
    ∃ ts, s.tokens = ts ++ r.tokens ∧
      ∀ t ∈ ts, s.start ≤ t.span.start ∧ t.span.start < t.span.stop ∧ t.span.stop ≤ r.start := by
  induction h with
  | refl s => exact ⟨[], rfl, by simp⟩
  | @step s s' r t hn ht h ih =>
    obtain ⟨hs', hstop, hle, hlt, -, -⟩ := hs.next hn ht
    obtain ⟨ts, htokens, hspans⟩ := ih hs'
    have hle' := h.start_le hs'
    refine ⟨t :: ts, by rw [(tokens_of_next hn ht).1, htokens, List.cons_append], ?_⟩
    intro u hu
    rcases List.mem_cons.mp hu with rfl | hu
    · omega
    · have := hspans u hu
      omega

/-- Whoever has fewer tokens left is further on. -/
theorem start_lt (h : s.Reaches r) (hs : s.IsOf text) (hsize : r.size < s.size) :
    s.start < r.start := by
  obtain ⟨ts, htokens, hspans⟩ := h.exists_tokens hs
  cases ts with
  | nil => simp [size, htokens] at hsize
  | cons t ts =>
    have := hspans t (by simp)
    omega

theorem mem_withEnd (h : s.Reaches r) (ht : t ∈ r.withEnd) : t ∈ s.withEnd := by
  induction h with
  | refl s => exact ht
  | step hn hkind _ ih =>
    obtain ⟨htokens, hending⟩ := tokens_of_next hn hkind
    have := ih ht
    rw [withEnd, hending] at this
    rw [withEnd, htokens, List.cons_append]
    exact List.mem_cons_of_mem _ this

end Reaches

/-! ### Where a stream ends -/

/-- What is read where a stream ends. -/
def Ending.reading : Ending → Token.Reading
  | .eof size => .eof size
  | .fault cause span => .fault cause span

/-- After its last token a stream ends with what is read there. -/
theorem IsOf.exists_read_ending (hs : s.IsOf text) :
    ∃ pre rest, text.toList = pre ++ rest ∧
      Token.read (Text.byteLength pre) rest = s.ending.reading := by
  induction htokens : s.tokens generalizing s with
  | nil =>
    obtain ⟨pre, rest, htext, hpre, heq⟩ := isOf_iff.mp hs
    refine ⟨pre, rest, htext, ?_⟩
    rw [ofChars, scan_eq, ← hpre] at heq
    cases hread : Token.read (Text.byteLength pre) rest with
    | token t rest' =>
      rw [hread] at heq
      rw [heq] at htokens
      cases htokens
    | eof size =>
      rw [hread] at heq
      rw [heq]
      rfl
    | fault cause span =>
      rw [hread] at heq
      rw [heq]
      rfl
  | cons t ts ih =>
    have hn : s.next = .ok (t, ⟨t.span.stop, ts, s.ending⟩) := by rw [Stream.next, htokens]
    have ht : t.kind ≠ .eof := hs.eofFree t (by simp [htokens])
    exact ih (s := ⟨t.span.stop, ts, s.ending⟩) (hs.next hn ht).1 rfl

/-- Tokens that do not end at a fault end with the text. -/
theorem IsOf.eq_of_ending_eof (hs : s.IsOf text) {size : Nat} (h : s.ending = .eof size) :
    size = Text.byteLength text.toList := by
  obtain ⟨pre, rest, htext, hread⟩ := hs.exists_read_ending
  rw [h, Token.read] at hread
  split at hread
  · next hlayout =>
    have hrest := Text.splitLayout_append rest
    rw [hlayout, List.append_nil] at hrest
    cases hread
    rw [htext, Text.byteLength_append, hrest]
  · split at hread <;> cases hread

/-! ### What comes of a stream -/

/-- The stream pauses at the offset: that is where reading goes on when some of the tokens have been
taken. -/
def PausesAt (s : Stream) (offset : Nat) : Prop :=
  ∃ r, s.Reaches r ∧ r.start = offset

/-- The errors that can come of a stream: the fault at which it ends, too deep a nesting where it
pauses, or one of its tokens, the end included, of which the error then carries the text. -/
inductive Reports (s : Stream) : SyntaxError → Prop where
  | fault {cause : LexicalCause} {span : Span} (h : s.ending = .fault cause span) :
    Reports s ⟨.lexical cause, span⟩
  | tooDeep {r : Stream} (h : s.Reaches r) (limit : Nat) : Reports s (r.tooDeep limit)
  | reject {t : Token} {cause : String → GrammarCause} (ht : t ∈ s.withEnd)
    (hcause : ∀ found, (cause found).carried? = some found) : Reports s (t.reject cause)

theorem Reports.of_reaches (he : r.Reports e) (h : s.Reaches r) : s.Reports e := by
  cases he with
  | fault hending => exact .fault (h.ending_eq ▸ hending)
  | tooDeep hr limit => exact .tooDeep (h.trans hr) limit
  | reject ht hcause => exact .reject (h.mem_withEnd ht) hcause

/-- A lexical error that comes of a stream is the fault at which the stream ends. -/
theorem Reports.ending_eq {cause : LexicalCause} {span : Span}
    (he : s.Reports ⟨.lexical cause, span⟩) : s.ending = .fault cause span := by
  cases he with
  | fault hending => exact hending

theorem reports_of_next (h : s.next = .error e) : s.Reports e := by
  rw [next] at h
  split at h
  · cases h
  · split at h
    · cases h
    · next hending =>
      cases h
      exact .fault hending

/-- The next token can be rejected, even if it is the end of the text. -/
theorem reports_reject (hn : s.next = .ok (t, r)) {cause : String → GrammarCause}
    (hcause : ∀ found, (cause found).carried? = some found) : s.Reports (t.reject cause) := by
  obtain ⟨post, hpost, -⟩ := exists_withEnd_of_next hn
  exact .reject (by rw [hpost]; exact List.mem_cons_self) hcause

end Stream

end Blockscript
