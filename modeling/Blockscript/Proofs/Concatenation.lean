import Blockscript.Proofs.Comparison
import Blockscript.Proofs.ErrorAtomicity
import Blockscript.Proofs.Phrases
import Blockscript.Proofs.Rescanning

/-!
# A text run in pieces

If a text ends with the semicolon of its last statement, then whatever is written after it changes
nothing about it: its tokens stay as they are, its statements stay as they are, and the text after
it is read as if it stood alone, only further on. Therefore it makes no difference whether two such
texts are run as one or one after the other.

## The shape of the argument

The parser looks one token ahead, so it could have looked past the last token of the first text. It
has not done so at the end of a statement that a semicolon ends, and a statement at the end of the
first text is of that sort, since no expression ends with a semicolon.

## Main definitions

* `Stream.extend` : a stream with the tokens of another one after its own.
* `Stream.Joins` : the last token of a stream is a semicolon, after which the other stream begins.
* `Comparison.extend`, `Comparison.shift` : the two ways in which runs are compared here.

## Main results

* `Stmt.run_extend`, `Program.statements_extend` : what follows the last semicolon is read on its
  own.
* `Program.statements_shift` : reading further on.
* `Program.parse_append` : reading two texts as one.
* `Session.run_joined_eq` : running two texts as one.
-/

namespace Blockscript

/-! ### Streams one after the other -/

namespace Stream

/-- The stream with the tokens of another one after its own. -/
def extend (s rest : Stream) : Stream :=
  ⟨s.start, s.tokens ++ rest.tokens, rest.ending⟩

/-- The tokens of the stream end with a semicolon, where `rest` begins and the text ends. -/
structure Joins (s rest : Stream) : Prop where
  last : ∀ t ∈ s.tokens.getLast?, t.kind = .semicolon ∧ t.span.stop = rest.start
  start_eq : s.tokens = [] → s.start = rest.start
  ending_eq : s.ending = .eof rest.start
  eofFree : s.EofFree

variable {s r rest : Stream} {t : Token} {kind : Token.Kind} {cause : String → GrammarCause}

theorem next_of_tokens_eq_cons {ts : List Token} (h : s.tokens = t :: ts) :
    s.next = .ok (t, ⟨t.span.stop, ts, s.ending⟩) := by
  rw [next, h]

theorem Joins.next (h : s.Joins rest) (hn : s.next = .ok (t, r)) : r.Joins rest := by
  obtain ⟨hlast, -, hending, heof⟩ := h
  cases htokens : s.tokens with
  | cons u us =>
    rw [next_of_tokens_eq_cons htokens] at hn
    cases hn
    rw [htokens] at hlast
    refine ⟨fun v hv => hlast v ?_, fun hnil => ?_, hending, fun v hv => heof v ?_⟩
    · rw [List.getLast?_cons, Option.mem_def.mp hv]
      rfl
    · obtain rfl : us = [] := hnil
      exact (hlast t rfl).2
    · rw [htokens]
      exact List.mem_cons_of_mem t hv
  | nil =>
    rw [Stream.next, htokens, hending] at hn
    cases hn
    exact ⟨by simp, fun _ => rfl, rfl, by simp [EofFree]⟩

/-- A token before the end is also the next one of the extended stream. -/
theorem next_extend (rest : Stream) (hn : s.next = .ok (t, r)) (hs : s.tokens ≠ []) :
    (s.extend rest).next = .ok (t, r.extend rest) := by
  obtain ⟨u, us, htokens⟩ := List.exists_cons_of_ne_nil hs
  rw [next_of_tokens_eq_cons htokens] at hn
  cases hn
  have happend : (s.extend rest).tokens = t :: (us ++ rest.tokens) := by
    rw [extend, htokens, List.cons_append]
  rw [next_of_tokens_eq_cons happend]
  rfl

theorem tokens_ne_nil_of_next (hn : s.next = .ok (t, r)) (ht : t.kind ≠ .eof) : s.tokens ≠ [] := by
  rw [(tokens_of_next hn ht).1]
  exact List.cons_ne_nil _ _

theorem expect_extend (hs : s.Joins rest) (h : s.expect kind cause = .ok r) (hk : kind ≠ .eof) :
    r.Joins rest ∧ (s.extend rest).expect kind cause = .ok (r.extend rest) := by
  obtain ⟨t, hn, rfl⟩ := expect_eq_ok h
  have hne := tokens_ne_nil_of_next hn hk
  refine ⟨hs.next hn, ?_⟩
  rw [expect, next_extend rest hn hne]
  exact if_pos rfl

end Stream

/-! ### What follows the last semicolon -/

/-- A stream and the extended one, which agree up to the end of the first. -/
def Comparison.extend (rest : Stream) : Comparison where
  Same s s' := s.Joins rest ∧ s' = s.extend rest
  SameError e e' := e = e'
  Past s := s.tokens = []
  PastError _ := True
  next {s s'} h := by
    obtain ⟨hjoins, rfl⟩ := h
    cases htokens : s.tokens with
    | nil => exact .inl rfl
    | cons t ts =>
      have hn := Stream.next_of_tokens_eq_cons htokens
      have hn' := Stream.next_extend rest hn (by simp [htokens])
      exact .inr (.inr ⟨t, t, _, _, hn, hn', rfl, rfl, fun _ => rfl, hjoins.next hn, rfl⟩)
  tooDeep h limit := by
    rw [h.2]
    rfl
  past_next {s} h := by
    cases hending : s.ending with
    | eof size =>
      refine .inr ⟨Token.eof size, ⟨size, [], s.ending⟩, ?_, fun _ => trivial, rfl⟩
      rw [Stream.next, h, hending]
    | fault cause span =>
      refine .inl ⟨⟨.lexical cause, span⟩, ?_, trivial⟩
      rw [Stream.next, h, hending]
  past_tooDeep _ _ := trivial

section

variable {α : Type} {s r rest : Stream} {a : α}

/-- A parser that succeeds has read a token. -/
theorem Parser.tokens_ne_nil_of_run {p : Parser α} (h : p.run s = .ok (a, r)) : s.tokens ≠ [] := by
  intro hnil
  have := p.size_lt h
  simp [Stream.size, hnil] at this

/-- A run that leaves a token has not looked past the end. -/
theorem Comparison.Outcome.of_ok {y : Except SyntaxError (α × Stream)}
    (h : (Comparison.extend rest).Outcome (.ok (a, r)) y) (hr : r.tokens ≠ []) :
    r.Joins rest ∧ y = .ok (a, r.extend rest) := by
  cases h with
  | ok h => exact ⟨h.1, by rw [h.2]⟩
  | pastOk h => exact absurd h hr

theorem Parser.Faithful.run_extend {p : Parser α} (hp : p.Faithful) (hs : s.Joins rest)
    (h : p.run s = .ok (a, r)) (hr : r.tokens ≠ []) :
    r.Joins rest ∧ p.run (s.extend rest) = .ok (a, r.extend rest) := by
  have houtcome := hp (.extend rest) ⟨hs, rfl⟩
  rw [h] at houtcome
  exact houtcome.of_ok hr

end

namespace Stmt

variable {expr : Parser Expr} {block : List String → Parser Block} {s r rest : Stream} {stmt : Stmt}

/-- A statement that a keyword opens ends with its semicolon, which need not be the last token. -/
theorem keywordRest_extend (hexpr : expr.Faithful) (hblock : ∀ params, (block params).Faithful)
    {word : Keyword} (hs : s.Joins rest) (h : keywordRest expr block word s = .ok (stmt, r)) :
    r.Joins rest ∧ keywordRest expr block word (s.extend rest) = .ok (stmt, r.extend rest) := by
  cases word with
  | printWord =>
    obtain ⟨⟨e, s₁⟩, hrun, h⟩ := bind_eq_ok.mp h
    obtain ⟨s₂, hexpect, h⟩ := bind_eq_ok.mp h
    cases h
    obtain ⟨d, -, htokens, -⟩ := Stream.tokens_of_expect hexpect (by decide)
    obtain ⟨hs₁, hrun'⟩ := hexpr.run_extend hs hrun (by simp [htokens])
    obtain ⟨hr, hexpect'⟩ := Stream.expect_extend hs₁ hexpect (by decide)
    exact ⟨hr, bind_eq_ok.mpr ⟨_, hrun', bind_eq_ok.mpr ⟨_, hexpect', rfl⟩⟩⟩
  | letWord =>
    obtain ⟨⟨name, s₁⟩, hn, h⟩ := bind_eq_ok.mp h
    dsimp only at h
    split at h
    · next hname =>
      obtain ⟨⟨params, s₂⟩, hparams, h⟩ := bind_eq_ok.mp h
      obtain ⟨⟨b, s₃⟩, hrun, h⟩ := bind_eq_ok.mp h
      obtain ⟨s₄, hexpect, h⟩ := bind_eq_ok.mp h
      cases h
      dsimp only at hrun hexpect
      obtain ⟨d, -, htokens, -⟩ := Stream.tokens_of_expect hexpect (by decide)
      have hn' := Stream.next_extend rest hn (Stream.tokens_ne_nil_of_next hn (by simp [hname]))
      have houtcome := outcome_parameters (.extend rest) [] ⟨hs.next hn, rfl⟩
      rw [hparams] at houtcome
      obtain ⟨hs₂, hparams'⟩ := houtcome.of_ok (Parser.tokens_ne_nil_of_run hrun)
      obtain ⟨hs₃, hrun'⟩ := (hblock params).run_extend hs₂ hrun (by simp [htokens])
      obtain ⟨hr, hexpect'⟩ := Stream.expect_extend hs₃ hexpect (by decide)
      refine ⟨hr, bind_eq_ok.mpr ⟨_, hn', ?_⟩⟩
      dsimp only
      rw [if_pos hname]
      refine bind_eq_ok.mpr ⟨_, hparams', bind_eq_ok.mpr ⟨_, hrun', ?_⟩⟩
      exact bind_eq_ok.mpr ⟨_, hexpect', rfl⟩
    · cases h

/-- What begins with an expression either leaves a token, or ends with a semicolon like the text. -/
theorem bareRest_extend (hexpr : expr.Faithful) (hsound : Expr.Sound expr 0) (hs : s.Joins rest)
    (h : bareRest expr s = .ok (stmt, r)) :
    r.Joins rest ∧ bareRest expr (s.extend rest) = .ok (stmt, r.extend rest) := by
  obtain ⟨⟨e, s₁⟩, hrun, h⟩ := bind_eq_ok.mp h
  obtain ⟨⟨follow, s₂⟩, hn, h⟩ := bind_eq_ok.mp h
  dsimp only at hn h
  -- No semicolon stands in an expression, so the last one is still to come.
  have hne : s₁.tokens ≠ [] := by
    intro hnil
    obtain ⟨hsum, -, -⟩ := hsound hrun
    obtain ⟨phrase, htokens, hinner, -⟩ := hsum.isPhrase
    rw [hnil, List.append_nil] at htokens
    obtain ⟨phrase', hne, htokens'⟩ := hsum.takes
    rw [htokens, hnil, List.append_nil] at htokens'
    subst htokens'
    have hlast := hs.last _ (by rw [htokens]; exact List.getLast?_eq_some_getLast hne)
    exact hinner _ (List.getLast_mem hne) hlast.1
  obtain ⟨hs₁, hrun'⟩ := hexpr.run_extend hs hrun hne
  have hn' := Stream.next_extend rest hn hne
  split at h
  · next hsemi =>
    cases h
    refine ⟨hs₁.next hn, bind_eq_ok.mpr ⟨_, hrun', bind_eq_ok.mpr ⟨_, hn', ?_⟩⟩⟩
    exact if_pos hsemi
  · next hsemi =>
    cases h
    refine ⟨hs₁, bind_eq_ok.mpr ⟨_, hrun', bind_eq_ok.mpr ⟨_, hn', ?_⟩⟩⟩
    exact if_neg hsemi

/-- **A statement of the first text is read as before**, whatever follows the text. -/
theorem run_extend (hexpr : expr.Faithful) (hsound : Expr.Sound expr 0)
    (hblock : ∀ params, (block params).Faithful) (hs : s.Joins rest)
    (h : (parser expr block).run s = .ok (stmt, r)) :
    r.Joins rest ∧ (parser expr block).run (s.extend rest) = .ok (stmt, r.extend rest) := by
  have hne := Parser.tokens_ne_nil_of_run h
  obtain ⟨⟨t, s₁⟩, hn, h⟩ := bind_eq_ok.mp h
  have hn' := Stream.next_extend rest hn hne
  dsimp only at h
  split at h
  · next word hk =>
    obtain ⟨hr, hrest⟩ := keywordRest_extend hexpr hblock (hs.next hn) h
    refine ⟨hr, bind_eq_ok.mpr ⟨_, hn', ?_⟩⟩
    simp only [hk, hrest]
  · split at h
    · next hk hbegins =>
      obtain ⟨hr, hrest⟩ := bareRest_extend hexpr hsound hs h
      exact ⟨hr, (parser_bare hn' hbegins).trans hrest⟩
    · cases h

end Stmt

theorem Stream.Joins.extend_eq {s rest : Stream} (h : s.Joins rest) (hs : s.tokens = []) :
    s.extend rest = rest := by
  rw [extend, hs, List.nil_append, h.start_eq hs]

/-- **What follows the last semicolon is read on its own**, and its statements follow those of the
first text. -/
theorem Program.statements_extend {limit : Nat} {s rest : Stream} {program : Program}
    (hs : s.Joins rest) (h : statements (Stmt.parserWithin limit) s = .ok program) :
    statements (Stmt.parserWithin limit) (s.extend rest) =
      (statements (Stmt.parserWithin limit) rest).map (program ++ ·) := by
  fun_induction statements (Stmt.parserWithin limit) s generalizing program with
  | case1 => cases h
  | case2 s t r hn ht =>
    cases h
    obtain ⟨hnil, -⟩ := hs.eofFree.ends hn ht
    rw [hs.extend_eq hnil]
    cases statements (Stmt.parserWithin limit) rest <;> rfl
  | case3 => cases h
  | case4 => cases h
  | case5 s t r hn ht first s' hrun hlt program' hstmts ih =>
    cases h
    have hne := Stream.tokens_ne_nil_of_next hn ht
    obtain ⟨hs', hrun'⟩ := Stmt.run_extend (Expr.faithful_parserWithin limit limit 0)
      (Expr.sound_parserWithin limit limit 0) (Block.faithful_parserWithin limit limit) hs hrun
    have hstep : statements (Stmt.parserWithin limit) (s.extend rest) =
        (statements (Stmt.parserWithin limit) (s'.extend rest)).map (first :: ·) := by
      rw [statements_eq, Stream.next_extend rest hn hne]
      exact (if_neg ht).trans (congrArg (· >>= _) hrun')
    rw [hstep, ih hs' hstmts]
    cases statements (Stmt.parserWithin limit) rest <;> rfl

/-! ### Reading further on -/

/-- A stream and the same one further on, which agree to their ends. -/
def Comparison.shift (n : Nat) : Comparison :=
  throughout (fun s s' => s' = s.shift n) (fun e e' => e' = e.shift n)
    (fun {s s'} h => by
      subst h
      obtain ⟨start, tokens, ending⟩ := s
      cases tokens with
      | cons t ts => exact .inr ⟨t, t.shift n, _, _, rfl, rfl, rfl, rfl, fun _ => rfl, rfl⟩
      | nil =>
        cases ending with
        | eof size =>
          exact .inr ⟨.eof size, .eof (n + size), _, _, rfl, rfl, rfl, rfl, fun _ => rfl, rfl⟩
        | fault cause span => exact .inl ⟨_, _, rfl, rfl, rfl⟩)
    (fun h limit => by
      rw [h]
      rfl)

theorem Comparison.Verdict.eq_mapError_shift {α : Type} {n : Nat} {x y : Except SyntaxError α}
    (h : (Comparison.shift n).Verdict x y) : y = x.mapError (SyntaxError.shift n) := by
  cases h with
  | ok a => rfl
  | error h => exact congrArg Except.error h
  | pastOk h => exact h.elim
  | pastError h => exact h.elim

/-- Further on the same program is read, and errors are further on. -/
theorem Program.statements_shift (limit n : Nat) (s : Stream) :
    statements (Stmt.parserWithin limit) (s.shift n) =
      (statements (Stmt.parserWithin limit) s).mapError (SyntaxError.shift n) :=
  (verdict_statements (Stmt.faithful_parserWithin limit) (.shift n) rfl).eq_mapError_shift

/-! ### Two texts as one -/

/-- The last token of the text is a semicolon, with which the text ends. -/
def Stream.EndsWithSemicolon (text : String) : Prop :=
  ∃ t ∈ (ofText text).tokens.getLast?, t.kind = .semicolon ∧
    t.span.stop = Text.byteLength text.toList

/-- Such a text keeps its tokens when another one follows, and those of the other one come after
them. -/
theorem Stream.EndsWithSemicolon.ofText_append {a : String} (h : EndsWithSemicolon a) (b : String) :
    (ofText a).Joins (ofChars (Text.byteLength a.toList) b.toList) ∧
      ofText (a ++ b) = (ofText a).extend (ofChars (Text.byteLength a.toList) b.toList) := by
  obtain ⟨t, hlast, hkind, hstop⟩ := h
  obtain ⟨us, htokens⟩ := List.getLast?_eq_some_iff.mp hlast
  have hscan : (scan 0 (a.toList ++ [])).1 = us ++ [t] := by
    rw [List.append_nil]
    exact htokens
  obtain ⟨-, hagain⟩ := scan_append_of_stop hscan (by omega)
  have halone := hagain [] t.word.stops_nil
  have hboth := hagain b.toList (by rw [Word.Stops, Token.word, hkind]; trivial)
  rw [List.append_nil, scan_nil] at halone
  have ha : ofText a = ⟨0, us ++ [t], .eof t.span.stop⟩ := by rw [ofText, ofChars, halone]
  constructor
  · refine ⟨fun u hu => ?_, fun hnil => ?_, by rw [ha, hstop]; rfl, eofFree_ofText a⟩
    · obtain rfl : u = t := Option.some.inj (hu.symm.trans hlast)
      exact ⟨hkind, hstop⟩
    · simp [ha] at hnil
  · rw [ofText, String.toList_append, ofChars, hboth, ha, extend, hstop]
    simp [ofChars]

/-- **Two texts as one.** If the first ends with the semicolon of its last statement, then the
second is read as if it stood alone. -/
theorem Program.parse_append {a b : String} {limit : Nat} {program : Program}
    (ha : parse a limit = .ok program) (hend : Stream.EndsWithSemicolon a) :
    parse (a ++ b) limit = ((parse b limit).mapError
      (SyntaxError.shift (Text.byteLength a.toList))).map (program ++ ·) := by
  obtain ⟨hjoins, hstream⟩ := hend.ofText_append b
  rw [parse, hstream, statements_extend hjoins ha, Stream.ofChars_shift, statements_shift]
  rfl

/-! ### Running two texts as one -/

/-- A program after another one. The value is that of the last statement, so it does not matter what
came before unless there is no statement. -/
theorem Program.run_append {limit : Nat} {first second : Program} {s s' : State} {v : Option Value}
    (h : first.run limit s = .ok v s') (hne : second ≠ []) :
    run limit (first ++ second) s = second.run limit s' := by
  obtain ⟨stmt, rest, rfl⟩ := List.exists_cons_of_ne_nil hne
  simp only [run, runIn] at h
  simp only [run, runIn, List.foldlM_append, Bind.bind, EStateM.bind, h]
  rfl

namespace Session

/-- A run that succeeds has executed its program. -/
theorem exists_of_run_ok {limit : Nat} {state : State} {source : String} {program : Program}
    {v : Option Value} {session' : Session} (hparse : Program.parse source limit = .ok program)
    (h : run ⟨limit, state⟩ source = (.ok v, session')) :
    ∃ state', program.run limit state = .ok v state' ∧ session' = ⟨limit, state'⟩ := by
  rw [run, hparse] at h
  simp only [exec] at h
  split at h
  · next v' state' hrun =>
    cases h
    exact ⟨state', hrun, rfl⟩
  · cases h

/-- **Running two texts as one.** If the first text ends with the semicolon of its last statement,
then the two are read as one text exactly if the second is read alone, and an error of the second is
the same error further on. Whatever the state of the session, once the first text has run to its
end, running both as one leaves the same session and gives the same error as running the second now,
and the same value unless the second is empty. -/
theorem run_joined_eq {a b : String} {limit : Nat} {first : Program}
    (ha : Program.parse a limit = .ok first) (hend : Stream.EndsWithSemicolon a) :
    (∀ second, Program.parse b limit = .ok second →
      Program.parse (a ++ b) limit = .ok (first ++ second)) ∧
    (∀ e, Program.parse b limit = .error e →
      Program.parse (a ++ b) limit = .error (e.shift (Text.byteLength a.toList))) ∧
    ∀ second state v session', Program.parse b limit = .ok second →
      run ⟨limit, state⟩ a = (.ok v, session') →
      (run ⟨limit, state⟩ (a ++ b)).2 = (session'.run b).2 ∧
      (∀ e, (run ⟨limit, state⟩ (a ++ b)).1 = .error e ↔ (session'.run b).1 = .error e) ∧
      (second ≠ [] → (run ⟨limit, state⟩ (a ++ b)).1 = (session'.run b).1) := by
  have hboth := @Program.parse_append a b limit first ha hend
  refine ⟨fun second hb => ?_, fun e hb => ?_, fun second state v session' hb hrun => ?_⟩
  · rw [hboth, hb]
    rfl
  · rw [hboth, hb]
    rfl
  · obtain ⟨state', hfirst, rfl⟩ := exists_of_run_ok ha hrun
    rw [hb] at hboth
    replace hboth : Program.parse (a ++ b) limit = .ok (first ++ second) := hboth
    by_cases hne : second = []
    · subst hne
      rw [List.append_nil] at hboth
      have hempty : Program.run limit [] state' = .ok none state' := rfl
      simp [run, hboth, hb, exec, hfirst, hempty]
    · simp only [run, hboth, hb, exec, Program.run_append hfirst hne]
      exact ⟨trivial, fun _ => trivial, fun _ => trivial⟩

/-- A text that ends with its last semicolon. Another one stands in a comment. -/
def opening : String :=
  "let f a = a; // one;\nprint f 1;"

/-- The program of `opening`. -/
def openingProgram : Program :=
  [.assign "f" ⟨["a"], [], .ref "a" []⟩, .print (.ref "f" [.int 1])]

/-- A text that uses a name of `opening` and another one, which is not bound. -/
def closing : String :=
  "print f 2; g"

/-- The program of `closing`. -/
def closingProgram : Program :=
  [.print (.ref "f" [.int 2]), .expr (.ref "g" [])]

/-- Together the two print two numbers and then fail, like one after the other. A text that is
refused is refused after `opening` as well, 31 bytes further on. -/
theorem run_opening_closing :
    Program.parse opening 2 = .ok openingProgram ∧ Stream.EndsWithSemicolon opening ∧
      Program.parse closing 2 = .ok closingProgram ∧
      Program.parse (opening ++ closing) 2 = .ok (openingProgram ++ closingProgram) ∧
      run ⟨2, .initial⟩ opening = (.ok none, (run ⟨2, .initial⟩ opening).2) ∧
      (run ⟨2, .initial⟩ (opening ++ closing)).2 = ((run ⟨2, .initial⟩ opening).2.run closing).2 ∧
      (run ⟨2, .initial⟩ (opening ++ closing)).1 = ((run ⟨2, .initial⟩ opening).2.run closing).1 ∧
      Program.parse "print;" 2 = .error ⟨.grammar (.invalidExpression ";"), ⟨5, 6⟩⟩ ∧
      Program.parse (opening ++ "print;") 2 =
        .error ⟨.grammar (.invalidExpression ";"), ⟨36, 37⟩⟩ := by
  have hopening : Program.parse opening 2 = .ok openingProgram := by with_unfolding_all rfl
  have hclosing : Program.parse closing 2 = .ok closingProgram := by with_unfolding_all rfl
  have hend : Stream.EndsWithSemicolon opening :=
    ⟨⟨.semicolon, ";", ⟨30, 31⟩⟩, by decide +kernel, rfl, by decide +kernel⟩
  have hrun : run ⟨2, .initial⟩ opening = (.ok none, (run ⟨2, .initial⟩ opening).2) :=
    Prod.ext (by decide +kernel) rfl
  have hrefused : Program.parse "print;" 2 =
      .error ⟨.grammar (.invalidExpression ";"), ⟨5, 6⟩⟩ := by
    with_unfolding_all rfl
  obtain ⟨hparse, -, hsession⟩ := @run_joined_eq opening closing 2 openingProgram hopening hend
  obtain ⟨hstate, -, hvalue⟩ := hsession _ _ _ _ hclosing hrun
  obtain ⟨-, herror, -⟩ := @run_joined_eq opening "print;" 2 openingProgram hopening hend
  have hlength : Text.byteLength opening.toList = 31 := by decide +kernel
  rw [hlength] at herror
  exact ⟨hopening, hend, hclosing, hparse _ hclosing, hrun, hstate,
    hvalue (by simp [closingProgram]), hrefused, herror _ hrefused⟩

end Session

end Blockscript
