import Blockscript.Proofs.LayoutIndependence
import Blockscript.Proofs.ViablePrefix

/-!
# Errors are blamed on the first hopeless token

A parser that goes from left to right and never back can do no better than this: it reports an error
at the first token after which no text can be a program any more. Whatever follows that token, the
error stays the same; and the tokens before it can be continued to a program. Here the two halves
are put together. The first half compares two runs, which agree up to the blamed token. The second
half is that the tokens before it are viable, and that viable tokens can be written down as a text.

Two tokens of a text never cover the same bytes, so the place of an error determines the token.

## Main definitions

* `Stream.AgreeUpTo`, `Comparison.upTo` : streams that agree up to a token.
* `Program.FirstHopeless` : a token after which nothing helps, and before which something would.

## Main results

* `Stream.pairwise_withEnd` : the tokens of a text lie one after the other.
* `Program.exists_parse_of_viable` : viable tokens begin a text that is a program.
* `Program.parse_error_firstHopeless` : errors are blamed on the first hopeless token.
-/

namespace Blockscript

/-! ### Where the tokens of a text lie -/

namespace Stream

variable {s : Stream} {t u : Token} {us post : List Token}

theorem mem_withEnd :
    u ∈ s.withEnd ↔ u ∈ s.tokens ∨ ∃ size, s.ending = .eof size ∧ u = .eof size := by
  rw [withEnd, List.mem_append]
  cases s.ending with
  | eof size => simp
  | fault cause span => simp

theorem le_start_of_mem_withEnd {offset : Nat} {cs : List Char}
    (h : u ∈ (ofChars offset cs).withEnd) : offset ≤ u.span.start := by
  obtain ⟨htokens, hending⟩ := le_of_scan offset cs
  rcases mem_withEnd.mp h with hu | ⟨size, hsize, rfl⟩
  · exact (htokens u hu).1
  · exact hending size hsize

/-- **The tokens of a text lie one after the other**, and the end of the text after them. -/
theorem pairwise_withEnd (offset : Nat) (cs : List Char) :
    (ofChars offset cs).withEnd.Pairwise fun t u =>
      t.span.start < t.span.stop ∧ t.span.stop ≤ u.span.start := by
  cases hread : Token.read offset cs with
  | token t rest =>
    have hlt := Token.length_lt_of_read hread
    have htokens : (ofChars offset cs).withEnd = t :: (ofChars t.span.stop rest).withEnd := by
      rw [ofChars, scan_eq, hread]
      rfl
    have hspan := (le_of_scan offset cs).1 t (by rw [scan_eq, hread]; exact List.mem_cons_self)
    rw [htokens, List.pairwise_cons]
    exact ⟨fun u hu => ⟨hspan.2, le_start_of_mem_withEnd hu⟩, pairwise_withEnd t.span.stop rest⟩
  | eof size =>
    have htokens : (ofChars offset cs).withEnd = [.eof size] := by
      rw [ofChars, scan_eq, hread]
      rfl
    rw [htokens]
    exact List.pairwise_singleton _ _
  | fault cause span =>
    have htokens : (ofChars offset cs).withEnd = [] := by
      rw [ofChars, scan_eq, hread]
      rfl
    rw [htokens]
    exact .nil
termination_by cs.length

/-- The tokens of a text before and after one of them. -/
theorem span_of_withEnd {text : String} (h : (ofText text).withEnd = us ++ t :: post) :
    (∀ u ∈ us, u.span.start < u.span.stop ∧ u.span.stop ≤ t.span.start) ∧
      ∀ u ∈ post, t.span.start < u.span.start := by
  have hpairwise := pairwise_withEnd 0 text.toList
  rw [show ofChars 0 text.toList = ofText text from rfl, h, List.pairwise_append,
    List.pairwise_cons] at hpairwise
  obtain ⟨-, ⟨hpost, -⟩, hus⟩ := hpairwise
  refine ⟨fun u hu => hus u hu t List.mem_cons_self, fun u hu => ?_⟩
  have := hpost u hu
  omega

/-- No other token of a text covers the same bytes. -/
theorem span_ne_of_withEnd {text : String} (h : (ofText text).withEnd = us ++ t :: post) :
    ∀ u ∈ us ++ post, u.span ≠ t.span := by
  obtain ⟨hus, hpost⟩ := span_of_withEnd h
  intro u hu heq
  rcases List.mem_append.mp hu with hu | hu
  · have := hus u hu
    rw [heq] at this
    omega
  · have := hpost u hu
    rw [heq] at this
    omega

/-- The tokens before one of them, or before the end, are not the end. -/
theorem mem_tokens_of_withEnd {text : String} (h : (ofText text).withEnd = us ++ t :: post)
    (hu : u ∈ us) : u ∈ (ofText text).tokens := by
  have hmem : u ∈ (ofText text).withEnd := by simp [h, hu]
  rcases mem_withEnd.mp hmem with hu' | ⟨size, -, rfl⟩
  · exact hu'
  · exact absurd ((span_of_withEnd h).1 _ hu).1 (Nat.lt_irrefl size)

/-! ### Streams that agree up to a token -/

/-- The next token of a stream is the first one, or the end, which can be read again. -/
theorem next_of_withEnd_cons (h : s.withEnd = u :: us) (hs : s.EofFree) :
    ∃ r, s.next = .ok (u, r) ∧ r.EofFree ∧
      (u.kind ≠ .eof ∧ r.withEnd = us ∨ u.kind = .eof ∧ us = [] ∧ r.withEnd = [u]) := by
  cases htokens : s.tokens with
  | cons t ts =>
    rw [withEnd, htokens, List.cons_append, List.cons.injEq] at h
    obtain ⟨rfl, hus⟩ := h
    refine ⟨⟨t.span.stop, ts, s.ending⟩, by rw [next, htokens], fun v hv => ?_, .inl ⟨?_, hus⟩⟩
    · exact hs v (by rw [htokens]; exact List.mem_cons_of_mem t hv)
    · exact hs t (by rw [htokens]; exact List.mem_cons_self)
  | nil =>
    rw [withEnd, htokens, List.nil_append] at h
    split at h
    · next size hending =>
      cases h
      refine ⟨⟨size, [], s.ending⟩, by rw [next, htokens, hending], by simp [EofFree], .inr ?_⟩
      exact ⟨rfl, rfl, by rw [withEnd, hending]; rfl⟩
    · cases h

/-- All that is left of the stream begins after `start`. -/
def LiesPast (start : Nat) (s : Stream) : Prop :=
  ∀ u ∈ s.withEnd, start < u.span.start

/-- The words of the two streams agree as long as the tokens on the left do not begin after
`start`. -/
structure AgreeUpTo (start : Nat) (s s' : Stream) : Prop where
  /-- On the left only the end is marked as such. -/
  left : s.EofFree
  /-- On the right only the end is marked as such. -/
  right : s'.EofFree
  /-- The words that agree, and what comes after them on the left. -/
  words : ∃ vs post, s.withEnd = vs ++ post ∧
    vs.map Token.word <+: s'.withEnd.map Token.word ∧ ∀ u ∈ post, start < u.span.start

variable {start : Nat} {s' : Stream}

/-- **Streams that agree offer the same word**, and go on agreeing, unless the agreement ends
here. -/
theorem AgreeUpTo.next (h : s.AgreeUpTo start s') :
    s.LiesPast start ∨ ∃ t t' r r', s.next = .ok (t, r) ∧ s'.next = .ok (t', r') ∧
      t.word = t'.word ∧ r.AgreeUpTo start r' := by
  obtain ⟨hs, hs', vs, post, hvs, hwords, hpost⟩ := h
  cases vs with
  | nil =>
    rw [List.nil_append] at hvs
    left
    rwa [LiesPast, hvs]
  | cons t vs =>
    cases hvs' : s'.withEnd with
    | nil => simp [hvs'] at hwords
    | cons t' vs' =>
      obtain ⟨r, hn, hr, hrest⟩ := next_of_withEnd_cons hvs hs
      obtain ⟨r', hn', hr', hrest'⟩ := next_of_withEnd_cons hvs' hs'
      rw [hvs', List.map_cons, List.map_cons, List.cons_prefix_cons] at hwords
      obtain ⟨hword, hwords⟩ := hwords
      have hkind := (Token.kind_text_of_word_eq hword).1
      refine .inr ⟨t, t', r, r', hn, hn', hword, hr, hr', ?_⟩
      -- The end is read again and again, on both sides or on neither.
      rcases hrest with ⟨hne, hrest⟩ | ⟨heof, -, hrest⟩
      · rcases hrest' with ⟨-, hrest'⟩ | ⟨heof', -, -⟩
        · exact ⟨vs, post, hrest, hrest' ▸ hwords, hpost⟩
        · exact absurd (hkind.trans heof') hne
      · rcases hrest' with ⟨hne', -⟩ | ⟨-, -, hrest'⟩
        · exact absurd (hkind.symm.trans heof) hne'
        · exact ⟨[t], [], by rw [hrest]; rfl, by simp [hrest', hword], by simp⟩

/-- What comes next past `start` begins after it, and so does the rest. A fault is not blamed on a
token. -/
theorem LiesPast.next (h : s.LiesPast start) :
    (∃ e, s.next = .error e ∧ e.blamesToken = false) ∨
      ∃ t r, s.next = .ok (t, r) ∧ start < t.span.start ∧ r.LiesPast start := by
  cases hn : s.next with
  | error e => exact .inl ⟨e, rfl, blamesToken_of_next_error hn⟩
  | ok p =>
    obtain ⟨post, hpost, hr⟩ := exists_withEnd_of_next hn
    refine .inr ⟨p.1, p.2, rfl, h p.1 (by simp [hpost]), fun u hu => h u ?_⟩
    exact hr.elim (fun hr => by simp [hpost, ← hr, hu]) (fun hr => hr ▸ hu)

end Stream

/-- Streams whose words agree as long as the tokens on the left do not begin after `start`. -/
def Comparison.upTo (start : Nat) : Comparison where
  Same s s' := s.AgreeUpTo start s'
  SameError e e' := e.cause = e'.cause
  Past s := s.LiesPast start
  PastError e := e.blamesToken = true → start < e.span.start
  next h := by
    refine h.next.imp_right fun hnext => .inr ?_
    obtain ⟨t, t', r, r', hn, hn', hword, hr⟩ := hnext
    obtain ⟨hkind, htext⟩ := Token.kind_text_of_word_eq hword
    refine ⟨t, t', r, r', hn, hn', hkind, htext, fun cause => ?_, hr⟩
    rw [Token.reject, Token.reject, htext]
  tooDeep _ _ := rfl
  past_next h := by
    rcases h.next with ⟨e, hn, he⟩ | ⟨t, r, hn, ht, hr⟩
    · exact .inl ⟨e, hn, fun hblames => absurd (he.symm.trans hblames) (by simp)⟩
    · exact .inr ⟨t, r, hn, fun _ _ => ht, hr⟩
  past_tooDeep _ _ he := by cases he

/-- An error that blames a token no further than `start` is the same for both. -/
theorem Comparison.Verdict.exists_of_error {α : Type} {start : Nat} {e : SyntaxError}
    {y : Except SyntaxError α} (h : (upTo start).Verdict (.error e) y) (he : e.blamesToken = true)
    (hstart : e.span.start ≤ start) : ∃ e', y = .error e' ∧ e.cause = e'.cause := by
  cases h with
  | error h => exact ⟨_, rfl, h⟩
  | pastError h => exact absurd (h he) (Nat.not_lt.mpr hstart)

/-! ### Writing viable tokens down -/

/-- Properly written words are those of a text. -/
theorem Stream.exists_sameWords {ts : List Token} (h : ∀ t ∈ ts, t.word.Spelled) :
    ∃ text, (ofText text).SameWords ⟨0, ts, .eof 0⟩ := by
  have hspelled : ∀ w ∈ ts.map Token.word, w.Spelled := by
    intro w hw
    obtain ⟨t, ht, rfl⟩ := List.mem_map.mp hw
    exact h t ht
  have hwrites : Writes (ts.map Token.word) ([] ++ Word.layout (ts.map Token.word)) :=
    Word.writes_layout (by simp) hspelled
  obtain ⟨hwords, size, hsize⟩ := scan_of_writes hwrites 0
  refine ⟨String.ofList ([] ++ Word.layout (ts.map Token.word)), ?_⟩
  rw [ofText, ofChars, String.toList_ofList]
  exact ⟨hwords, by rw [hsize]; rfl⟩

theorem Comparison.Verdict.eq_ok {α : Type} {x : Except SyntaxError α} {a : α}
    (h : words.Verdict x (.ok a)) : x = .ok a := by
  cases h with
  | ok a => rfl
  | pastOk h => exact h.elim
  | pastError h => exact h.elim

namespace Program

/-- Viable tokens begin a text that is a program, provided that the limit is large enough. -/
theorem exists_parse_of_viable {us : List Token} (hus : ∀ u ∈ us, u.word.Spelled)
    (h : Program.Viable us) :
    ∃ text bound program, us.map Token.word <+: (Stream.ofText text).tokens.map Token.word ∧
      ∀ limit ≥ bound, parse text limit = .ok program := by
  obtain ⟨ws, program, hws, hprogram⟩ := h
  obtain ⟨text, hsame⟩ := Stream.exists_sameWords (List.forall_mem_append.mpr ⟨hus, hws⟩)
  refine ⟨text, (us ++ ws).length, program, ?_, fun limit hlimit => ?_⟩
  · rw [hsame.words, List.map_append]
    exact List.prefix_append _ _
  · have hverdict := verdict_statements (Stmt.faithful_parserWithin limit) .words hsame
    have hparse : statements (Stmt.parserWithin limit) ⟨0, us ++ ws, .eof 0⟩ = .ok program :=
      statements_of_isProgram hprogram hlimit ⟨rfl, 0, rfl⟩
    rw [hparse] at hverdict
    exact hverdict.eq_ok

/-! ### The first hopeless token -/

/-- After the tokens `us` the token `t` is hopeless, and the tokens before it are not. -/
structure FirstHopeless (limit : Nat) (cause : GrammarCause) (us : List Token) (t : Token) :
    Prop where
  /-- Whatever follows the same words, the text is refused for the same reason. -/
  refused : ∀ text, (us ++ [t]).map Token.word <+: (Stream.ofText text).withEnd.map Token.word →
    ∃ span, parse text limit = .error ⟨.grammar cause, span⟩
  /-- The words before are the first ones of a program, if the limit is large enough. -/
  continued : ∃ text bound program,
    us.map Token.word <+: (Stream.ofText text).tokens.map Token.word ∧
      ∀ limit ≥ bound, parse text limit = .ok program

theorem blamesToken_of_ne_tooDeep {cause : GrammarCause} (h : ∀ l, cause ≠ .tooDeep l)
    (span : Span) : SyntaxError.blamesToken ⟨.grammar cause, span⟩ = true := by
  cases cause with
  | tooDeep l => exact absurd rfl (h l)
  | _ => rfl

/-- A text that agrees with a refused one up to the token that is blamed is refused as well. -/
theorem exists_parse_error_of_words {text text' : String} {limit : Nat} {us post : List Token}
    {t : Token} {cause : GrammarCause} (h : parse text limit = .error ⟨.grammar cause, t.span⟩)
    (hcause : ∀ l, cause ≠ .tooDeep l) (hus : (Stream.ofText text).withEnd = us ++ t :: post)
    (hwords : (us ++ [t]).map Token.word <+: (Stream.ofText text').withEnd.map Token.word) :
    ∃ span, parse text' limit = .error ⟨.grammar cause, span⟩ := by
  have hsame : (Stream.ofText text).AgreeUpTo t.span.start (Stream.ofText text') :=
    ⟨Stream.eofFree_ofText text, Stream.eofFree_ofText text', us ++ [t], post, by simp [hus],
      hwords, (Stream.span_of_withEnd hus).2⟩
  have hverdict := verdict_statements (Stmt.faithful_parserWithin limit) (.upTo t.span.start) hsame
  rw [show statements (Stmt.parserWithin limit) (Stream.ofText text) = _ from h] at hverdict
  obtain ⟨⟨cause', span⟩, he, rfl⟩ := hverdict.exists_of_error
    (blamesToken_of_ne_tooDeep hcause t.span) (Nat.le_refl _)
  exact ⟨span, he⟩

/-- **Errors are blamed on the first hopeless token.** If a text is refused, neither for a fault of
its tokens nor for its nesting, then the error covers exactly one of its tokens, or the end;
whatever follows that token the error is the same, and the tokens before it can be continued to a
program. -/
theorem parse_error_firstHopeless {text : String} {limit : Nat} {cause : GrammarCause} {span : Span}
    (h : parse text limit = .error ⟨.grammar cause, span⟩) (hcause : ∀ l, cause ≠ .tooDeep l) :
    ∃ us t post, (Stream.ofText text).withEnd = us ++ t :: post ∧ t.span = span ∧
      (∀ u ∈ us ++ post, u.span ≠ span) ∧ FirstHopeless limit cause us t := by
  obtain ⟨us, t, post, cause', hus, herror, hviable⟩ :=
    blames_statements h (blamesToken_of_ne_tooDeep hcause span)
  obtain rfl : span = t.span := congrArg SyntaxError.span herror
  refine ⟨us, t, post, hus, rfl, Stream.span_ne_of_withEnd hus, fun text' hwords => ?_, ?_⟩
  · exact exists_parse_error_of_words h hcause hus hwords
  · refine exists_parse_of_viable (fun u hu => ?_) hviable
    exact Stream.spelled_of_mem_scan (Stream.mem_tokens_of_withEnd hus hu)

/-- A text that is refused at its end, with a block, a parenthesis and an operand all unfinished. -/
def unfinished : String :=
  "let f a = g (a +"

/-- The end of the text is blamed, where an operand was due. -/
theorem parse_unfinished_firstHopeless :
    parse unfinished 4 = .error ⟨.grammar (.invalidExpression ""), ⟨16, 16⟩⟩ ∧
      (∀ l, GrammarCause.invalidExpression "" ≠ .tooDeep l) ∧
      ∃ us t post, (Stream.ofText unfinished).withEnd = us ++ t :: post ∧ t.span = ⟨16, 16⟩ ∧
        (∀ u ∈ us ++ post, u.span ≠ ⟨16, 16⟩) ∧ FirstHopeless 4 (.invalidExpression "") us t := by
  have hparse : parse unfinished 4 = .error ⟨.grammar (.invalidExpression ""), ⟨16, 16⟩⟩ := by
    with_unfolding_all rfl
  exact ⟨hparse, by simp, parse_error_firstHopeless hparse (by simp)⟩

end Program

end Blockscript
