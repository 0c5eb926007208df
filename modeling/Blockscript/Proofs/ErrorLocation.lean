import Blockscript.Proofs.CorrectPrefix
import Blockscript.Proofs.OnDemandAgreement

/-!
# Where syntax errors are

A syntax error comes with the bytes that it concerns, and most come with a text as well. The two
belong together: the bytes lie between characters, inside the source, and what stands there is the
text that the error carries. Nothing stands there if the nesting is too deep, which is found out
before a token is read, or if the end of the source is to blame.

An error does not say which token is to blame, but it can be told. It is the one that covers the
same bytes, and no two tokens do.

## Main definitions

* `SyntaxCause.carried?` : the text that an error carries.
* `SyntaxError.IsDueTo` : the token is to blame for the error.
* `SyntaxError.Located` : the bytes of an error are what they should be.

## Main results

* `Stream.Reports.located` : whatever error comes of a stream, its bytes are what they should be.
* `Program.parse_error_located` : so it is for the errors of a program.
-/

namespace Blockscript

/-- The text that a lexical error carries. A quote that is never closed is not named. -/
def LexicalCause.carried? : LexicalCause → Option String
  | .unrecognizedChar c => some (String.ofList [c])
  | .malformedNumber text | .malformedIdentifier text => some text
  | .unterminatedString => none

/-- The text that a syntax error carries. -/
def SyntaxCause.carried? : SyntaxCause → Option String
  | .lexical cause => cause.carried?
  | .grammar cause => cause.carried?

namespace SyntaxError

/-- The token is to blame for the error: it is the bytes of this token that the error concerns, and
its text that the error carries. -/
def IsDueTo (e : SyntaxError) (t : Token) : Prop :=
  ∃ cause : String → GrammarCause,
    (∀ found, (cause found).carried? = some found) ∧ e = t.reject cause

/-- The end of the text is to blame for the error. -/
def IsDueToEnd (text : String) (e : SyntaxError) : Prop :=
  ∃ t ∈ (Stream.ofText text).withEnd, t.kind = .eof ∧ e.IsDueTo t

/-- The error concerns `piece`, which `rest` follows in the text. -/
structure Located (text : String) (e : SyntaxError) (piece rest : List Char) : Prop where
  start_isBoundary : Text.IsBoundary text e.span.start
  stop_isBoundary : Text.IsBoundary text e.span.stop
  start_le_stop : e.span.start ≤ e.span.stop
  stop_le : e.span.stop ≤ Text.byteLength text.toList
  slice_eq : Text.slice? text.toList e.span = some piece
  rest_eq : Text.dropBytes? e.span.stop text.toList = some rest
  /-- What the error carries is what stands there. -/
  carried : ∀ found, e.cause.carried? = some found → found.toList = piece
  /-- There is exactly one token to blame for an error of the grammar. -/
  due : ∀ cause, e.cause = .grammar cause → (∀ limit, cause ≠ .tooDeep limit) →
    ∃! t, t ∈ (Stream.ofText text).withEnd ∧ e.IsDueTo t
  empty_iff : piece = [] ↔
    (∃ limit, e.cause = .grammar (.tooDeep limit)) ∨ e.IsDueToEnd text
  span_of_end : e.IsDueToEnd text →
    e.span = ⟨Text.byteLength text.toList, Text.byteLength text.toList⟩
  /-- A quote that is not closed is the last of its kind. -/
  unterminated : e.cause = .lexical .unterminatedString →
    ∃ quote, (quote = '\x22' ∨ quote = '\x27') ∧ piece = [quote] ∧ quote ∉ rest

end SyntaxError

variable {text : String} {s : Stream} {t u : Token} {e : SyntaxError}

/-! ### Tokens -/

theorem SyntaxError.IsDueTo.span_eq (h : e.IsDueTo t) : e.span = t.span := by
  obtain ⟨cause, -, rfl⟩ := h
  rfl

theorem SyntaxError.IsDueTo.carried_eq (h : e.IsDueTo t) : e.cause.carried? = some t.text := by
  obtain ⟨cause, hcause, rfl⟩ := h
  exact hcause t.text

/-- An error of which no token can be to blame is not due to the end. -/
theorem SyntaxError.not_isDueToEnd (h : ∀ t, ¬ e.IsDueTo t) : ¬ e.IsDueToEnd text := by
  rintro ⟨t, -, -, ht⟩
  exact h t ht

/-- The text of a token stands where its span says. -/
theorem Stream.IsOf.standsAt_of_mem (hs : s.IsOf text) (ht : t ∈ s.tokens) :
    t.text.toList ≠ [] ∧ ∃ rest, Text.StandsAt text t.span t.text.toList rest := by
  induction htokens : s.tokens generalizing s with
  | nil => simp [htokens] at ht
  | cons u us ih =>
    have hn : s.next = .ok (u, ⟨u.span.stop, us, s.ending⟩) := by rw [Stream.next, htokens]
    obtain ⟨hs', -, -, -, hspelled, hstands⟩ := hs.next hn (hs.eofFree u (by simp [htokens]))
    rw [htokens] at ht
    rcases List.mem_cons.mp ht with rfl | ht
    · exact ⟨hspelled.text_ne_nil, hstands⟩
    · exact ih hs' ht rfl

/-- The same for the end of a text, where nothing stands. -/
theorem Stream.standsAt_of_mem_withEnd (ht : t ∈ (ofText text).withEnd) :
    ∃ rest, Text.StandsAt text t.span t.text.toList rest ∧
      (t.text.toList = [] ↔ t.kind = .eof) ∧
      (t.kind = .eof → t.span = ⟨Text.byteLength text.toList, Text.byteLength text.toList⟩) := by
  rcases mem_withEnd.mp ht with hmem | ⟨size, hsize, rfl⟩
  · obtain ⟨hne, rest, hstands⟩ := (isOf_ofText text).standsAt_of_mem hmem
    have hkind := eofFree_ofText text t hmem
    exact ⟨rest, hstands, by simp [hne, hkind], fun h => absurd h hkind⟩
  · obtain rfl := (isOf_ofText text).eq_of_ending_eof hsize
    exact ⟨[], ⟨text.toList, by simp [Token.eof], rfl⟩, by simp [Token.eof], fun _ => rfl⟩

/-- Tokens of a text that cover the same bytes are the same. -/
theorem Stream.eq_of_span_eq (ht : t ∈ (ofText text).withEnd) (hu : u ∈ (ofText text).withEnd)
    (h : u.span = t.span) : u = t := by
  obtain ⟨us, post, hsplit⟩ := List.append_of_mem ht
  by_contra hne
  refine span_ne_of_withEnd hsplit u ?_ h
  rw [hsplit, List.mem_append, List.mem_cons] at hu
  rw [List.mem_append]
  tauto

/-! ### Faults -/

/-- A fault carries the characters that it covers, unless it is a quote that does not occur
again. -/
theorem Lexeme.carried_of_read {c : Char} {cs lexeme : List Char} {cause : LexicalCause}
    (h : read c cs = .fault cause lexeme) :
    cause.carried? = some (String.ofList lexeme) ∨
      cause = .unterminatedString ∧ (c = '\x22' ∨ c = '\x27') ∧ lexeme = [c] ∧ c ∉ cs := by
  rw [read] at h
  split_ifs at h with hdigit hword hquote
  · rw [readNumber] at h
    split at h
    · cases h
    · cases h
      exact .inl rfl
  · rw [readWord] at h
    split at h
    · cases h
    · cases h
      exact .inl rfl
  · rw [readString] at h
    split at h
    · next hnone =>
      cases h
      refine .inr ⟨rfl, hquote, rfl, fun hmem => ?_⟩
      simpa using List.dropWhile_eq_nil_iff.mp hnone c hmem
    · cases h
  · split at h
    · cases h
    · cases h
      exact .inl rfl

/-- A fault stands behind some layout. -/
theorem Token.exists_of_read_fault {offset : Nat} {cs : List Char} {cause : LexicalCause}
    {span : Span} (h : read offset cs = .fault cause span) :
    ∃ gap c rest lexeme, cs = gap ++ c :: rest ∧ Lexeme.read c rest = .fault cause lexeme ∧
      span = ⟨offset + Text.byteLength gap,
        offset + Text.byteLength gap + Text.byteLength lexeme⟩ := by
  have hcs := Text.splitLayout_append cs
  rw [read] at h
  split at h
  · cases h
  · next c rest hrest =>
    rw [hrest] at hcs
    split at h
    · cases h
    · next hread =>
      cases h
      exact ⟨_, c, rest, _, hcs.symm, hread, rfl⟩

/-- The fault at which the tokens of a text end. -/
theorem Stream.IsOf.exists_lexeme_of_fault (hs : s.IsOf text) {cause : LexicalCause} {span : Span}
    (h : s.ending = .fault cause span) :
    ∃ c cs lexeme rest, c :: cs = lexeme ++ rest ∧ lexeme ≠ [] ∧
      Lexeme.read c cs = .fault cause lexeme ∧ Text.StandsAt text span lexeme rest := by
  obtain ⟨pre, tail, htext, hread⟩ := hs.exists_read_ending
  rw [h] at hread
  obtain ⟨gap, c, cs, lexeme, rfl, hlexeme, rfl⟩ := Token.exists_of_read_fault hread
  have hne := Lexeme.text_ne_nil c cs
  obtain ⟨rest, hrest⟩ := Lexeme.text_prefix_read c cs
  rw [hlexeme] at hne hrest
  refine ⟨c, cs, lexeme, rest, hrest.symm, hne, hlexeme, pre ++ gap, ?_, ?_⟩
  · rw [htext, List.append_assoc, ← hrest]
    rfl
  · rw [Text.byteLength_append]

/-! ### Errors -/

theorem SyntaxError.not_isDueTo_lexical {cause : LexicalCause} {span : Span} (t : Token) :
    ¬ IsDueTo ⟨.lexical cause, span⟩ t := by
  rintro ⟨cause', -, heq⟩
  cases heq

theorem SyntaxError.not_isDueTo_tooDeep {limit : Nat} {span : Span} (t : Token) :
    ¬ IsDueTo ⟨.grammar (.tooDeep limit), span⟩ t := by
  intro h
  cases h.carried_eq

namespace Stream.Reports

open SyntaxError

theorem located_fault {cause : LexicalCause} {span : Span}
    (h : (ofText text).ending = .fault cause span) :
    ∃ piece rest, Located text ⟨.lexical cause, span⟩ piece rest := by
  obtain ⟨c, cs, lexeme, rest, hcut, hne, hread, hstands⟩ :=
    (isOf_ofText text).exists_lexeme_of_fault h
  obtain ⟨hstart, hstop, hle, hlen, hslice, hrest⟩ := hstands.bounds
  have hend : ¬ IsDueToEnd text ⟨.lexical cause, span⟩ := not_isDueToEnd not_isDueTo_lexical
  refine ⟨lexeme, rest, hstart, hstop, hle, hlen, hslice, hrest, ?_, by simp, ?_,
    fun h => absurd h hend, ?_⟩
  · intro found hfound
    rcases Lexeme.carried_of_read hread with hcarried | ⟨rfl, -⟩
    · obtain rfl : String.ofList lexeme = found := Option.some_inj.mp (hcarried.symm.trans hfound)
      exact String.toList_ofList
    · cases hfound
  · simp [hne, hend]
  · intro hcause
    obtain rfl : cause = .unterminatedString := by simpa using hcause
    rcases Lexeme.carried_of_read hread with hcarried | ⟨-, hquote, rfl, hnot⟩
    · cases hcarried
    · obtain rfl : cs = rest := (List.cons.inj hcut).2
      exact ⟨c, hquote, rfl, hnot⟩

theorem located_tooDeep {r : Stream} (h : (ofText text).Reaches r) (limit : Nat) :
    ∃ piece rest, Located text (r.tooDeep limit) piece rest := by
  obtain ⟨pre, rest, htext, hpre, -⟩ := isOf_iff.mp (h.isOf (isOf_ofText text))
  have hstands : Text.StandsAt text (r.tooDeep limit).span [] rest := ⟨pre, htext, by
    rw [hpre]
    rfl⟩
  obtain ⟨hstart, hstop, hle, hlen, hslice, hrest⟩ := hstands.bounds
  refine ⟨[], rest, hstart, hstop, hle, hlen, hslice, hrest, ?_, ?_, ?_, ?_, ?_⟩
  · intro found hfound
    cases hfound
  · rintro cause hcause hne
    exact absurd (SyntaxCause.grammar.inj hcause).symm (hne limit)
  · exact ⟨fun _ => .inl ⟨limit, rfl⟩, fun _ => rfl⟩
  · exact fun h => absurd h (not_isDueToEnd not_isDueTo_tooDeep)
  · intro hcause
    cases hcause

theorem located_reject (ht : t ∈ (ofText text).withEnd) {cause : String → GrammarCause}
    (hcause : ∀ found, (cause found).carried? = some found) :
    ∃ piece rest, Located text (t.reject cause) piece rest := by
  have hdue : (t.reject cause).IsDueTo t := ⟨cause, hcause, rfl⟩
  have honly {u : Token} (hu : u ∈ (ofText text).withEnd) (h : (t.reject cause).IsDueTo u) :
      u = t := eq_of_span_eq ht hu h.span_eq.symm
  have hdeep (limit : Nat) : (t.reject cause).cause ≠ .grammar (.tooDeep limit) := by
    intro heq
    have := hdue.carried_eq
    rw [heq] at this
    cases this
  have hend : (t.reject cause).IsDueToEnd text ↔ t.kind = .eof := by
    constructor
    · rintro ⟨u, hu, hkind, h⟩
      rw [← honly hu h]
      exact hkind
    · exact fun hkind => ⟨t, ht, hkind, hdue⟩
  obtain ⟨rest, hstands, hempty, hspan⟩ := standsAt_of_mem_withEnd ht
  obtain ⟨hstart, hstop, hle, hlen, hslice, hrest⟩ := hstands.bounds
  refine ⟨t.text.toList, rest, hstart, hstop, hle, hlen, hslice, hrest, ?_, ?_, ?_, ?_, ?_⟩
  · intro found hfound
    rw [hdue.carried_eq, Option.some_inj] at hfound
    rw [hfound]
  · intro cause' _ _
    exact ⟨t, ⟨ht, hdue⟩, fun u hu => honly hu.1 hu.2⟩
  · rw [hempty, hend]
    constructor
    · exact .inr
    · rintro (⟨limit, hlimit⟩ | h)
      · exact absurd hlimit (hdeep limit)
      · exact h
  · exact fun h => hspan (hend.mp h)
  · intro h
    cases h

/-- **Whatever error comes of the stream of a text**, its bytes are what they should be. -/
theorem located (h : (ofText text).Reports e) : ∃ piece rest, Located text e piece rest := by
  cases h with
  | fault hending => exact located_fault hending
  | tooDeep hr limit => exact located_tooDeep hr limit
  | reject ht hcause => exact located_reject ht hcause

end Stream.Reports

namespace Program

/-- **Syntax errors are where they say.** The bytes of an error lie between characters, inside the
text, and what stands there is what the error carries. Nothing stands there exactly if the nesting
is too deep or the end of the text is to blame. -/
theorem parse_error_located {text : String} {limit : Nat} {e : SyntaxError}
    (h : parse text limit = .error e) : ∃ piece rest, e.Located text piece rest := by
  have hagrees := OnDemand.agrees_parse text limit
  rw [h] at hagrees
  exact hagrees.reports.located

/-- A text with a quote that is never closed, behind a character of two bytes. -/
def unclosed : String := "print 'é' + \x22'é"

/-- The double quote is blamed: not the single ones before it, nor the one after it. -/
theorem parse_unclosed_located :
    parse unclosed 2 = .error ⟨.lexical .unterminatedString, ⟨13, 14⟩⟩ ∧
      SyntaxError.Located unclosed ⟨.lexical .unterminatedString, ⟨13, 14⟩⟩
        ['\x22'] ['\x27', 'é'] := by
  have hparse : parse unclosed 2 = .error ⟨.lexical .unterminatedString, ⟨13, 14⟩⟩ := by
    with_unfolding_all rfl
  have hslice : Text.slice? unclosed.toList ⟨13, 14⟩ = some ['\x22'] := by decide
  have hrest : Text.dropBytes? 14 unclosed.toList = some ['\x27', 'é'] := by decide
  obtain ⟨piece, rest, hlocated⟩ := parse_error_located hparse
  obtain rfl := Option.some_inj.mp (hslice.symm.trans hlocated.slice_eq)
  obtain rfl := Option.some_inj.mp (hrest.symm.trans hlocated.rest_eq)
  exact ⟨hparse, hlocated⟩

end Program

end Blockscript
