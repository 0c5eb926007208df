import Blockscript.Proofs.Phrases
import Blockscript.Proofs.RoundTrip

/-!
# The tokens before a blamed one

When the parser blames a token, it has nothing to say against the tokens before it: they can be
continued to a program. This is shown for each function of the parser, from the atoms up to whole
programs. A function that fails has read a first part of a phrase of its rule, and that part can be
completed: an operand that is missing is written down, and what was opened is closed.

Texts can also fail for other reasons, which say nothing about the token: no token can be read, or
the nesting is too deep.

## The shape of the argument

`Blames V ts e` says that the error blames one of the tokens `ts`, and that `V` holds of the tokens
before it. A function that fails after it has read a phrase passes on the error of another function,
together with what is known about the tokens in between (`Blames.prepend`); if the token right after
the phrase is to blame, then the phrase has to be viable by itself (`Blames.after`). All facts about
errors are compositions of these two.

## Main definitions

* `Token.Kind.closes` : what ends the phrases in front of it.
* `Viable` : the tokens can be completed to a phrase of a rule, whatever closes it.
* `Stream.withEnd` : the tokens of a stream, with the end of the text.
* `Blames` : the token that an error blames, and the tokens before it.

## Main results

* `Expr.blaming_parserWithin`, `Block.blaming_parserWithin`, `Stmt.blames_run` : the parsers blame a
  token only if the tokens before it are viable.
* `Program.blames_statements` : the tokens before a blamed one can be continued to a program.
-/

namespace Blockscript

/-! ### Completing a phrase -/

/-- What ends the phrases in front of it, be it a token or the end of the text. -/
def Token.Kind.closes : Token.Kind → Bool
  | .closeParen | .semicolon | .eof => true
  | _ => false

theorem Token.Kind.beginsStmt_of_closes {kind : Token.Kind} (h : kind.closes = true) :
    kind.beginsStmt = false := by
  cases kind <;> first | rfl | cases h

theorem Token.Kind.beginsExpr_of_closes {kind : Token.Kind} (h : kind.closes = true) :
    kind.beginsExpr = false :=
  beginsExpr_eq_false (beginsStmt_of_closes h)

theorem Token.Kind.leftPower_of_closes {kind : Token.Kind} (h : kind.closes = true) :
    kind.leftPower ≤ 0 := by
  cases kind <;> first | decide | cases h

/-- The tokens can be completed to a phrase of the rule, by properly written words: whatever follows
then that closes the phrase. -/
def Viable {α : Type} (rule : List Token → α → List Token → Prop) (us : List Token) : Prop :=
  ∃ ws a, (∀ w ∈ ws, w.word.Spelled) ∧
    ∀ rest, (nextKind rest).closes = true → rule (us ++ (ws ++ rest)) a rest

/-- A token for a word, at no particular place. -/
def Word.token (w : Word) : Token :=
  ⟨w.kind, String.ofList w.text, ⟨0, 0⟩⟩

@[simp] theorem Word.word_token (w : Word) : w.token.word = w := by
  simp [token, Token.word]

section

variable {α β : Type} {rule : List Token → α → List Token → Prop}
  {rule' : List Token → β → List Token → Prop} {us vs ts rest : List Token} {t : Token}

/-- What is viable with more tokens is viable. -/
theorem Viable.of_append (h : Viable rule (us ++ vs)) (hvs : ∀ v ∈ vs, v.word.Spelled) :
    Viable rule us := by
  obtain ⟨ws, a, hws, hrule⟩ := h
  refine ⟨vs ++ ws, a, ?_, fun rest hrest => ?_⟩
  · simpa [or_imp, forall_and] using ⟨hvs, hws⟩
  · simpa using hrule rest hrest

/-- Tokens in front make a viable phrase of another rule. -/
theorem Viable.imp (h : Viable rule us) (vs : List Token) (f : α → β)
    (hrule : ∀ {ts a rest}, (nextKind rest).closes = true → rule ts a rest →
      rule' (vs ++ ts) (f a) rest) : Viable rule' (vs ++ us) := by
  obtain ⟨ws, a, hws, h⟩ := h
  refine ⟨ws, f a, hws, fun rest hrest => ?_⟩
  rw [List.append_assoc]
  exact hrule hrest (h rest hrest)

/-- Tokens in front and one that closes the phrase make a viable phrase of another rule. -/
theorem Viable.close (h : Viable rule us) (kind : Token.Kind) (hkind : kind.spelling ≠ [])
    (hcloses : kind.closes = true) (vs : List Token) (f : α → β)
    (hrule : ∀ {ts a rest}, rule ts a (Word.token (.fixed kind) :: rest) →
      rule' (vs ++ ts) (f a) rest) : Viable rule' (vs ++ us) := by
  obtain ⟨ws, a, hws, h⟩ := h
  refine ⟨ws ++ [Word.token (.fixed kind)], f a, ?_, fun rest _ => ?_⟩
  · simpa [or_imp, forall_and] using ⟨hws, Word.spelled_fixed hkind⟩
  · simpa using hrule (h (Word.token (.fixed kind) :: rest) hcloses)

end

/-! ### Blaming a token -/

theorem bind_eq_error {ε α β : Type} {x : Except ε α} {f : α → Except ε β} {e : ε} :
    x >>= f = .error e ↔ x = .error e ∨ ∃ a, x = .ok a ∧ f a = .error e := by
  cases x with
  | error e => simp [bind, Except.bind]
  | ok a => simp [bind, Except.bind]

/-- The tokens of the stream, with the end of the text if that is how they end. -/
def Stream.withEnd (s : Stream) : List Token :=
  s.tokens ++ match s.ending with
    | .eof size => [Token.eof size]
    | .fault _ _ => []

/-- Whether the error says something about a token: no fault, and not the depth of the nesting. -/
def SyntaxError.blamesToken : SyntaxError → Bool
  | ⟨.lexical _, _⟩ | ⟨.grammar (.tooDeep _), _⟩ => false
  | _ => true

/-- If the error blames a token, then it is one of `ts`, and `V` holds of those before it. -/
def Blames (V : List Token → Prop) (ts : List Token) (e : SyntaxError) : Prop :=
  e.blamesToken = true → ∃ us t post cause, ts = us ++ t :: post ∧ e = t.reject cause ∧ V us

section

variable {V V' : List Token → Prop} {ts : List Token} {e : SyntaxError} {s r : Stream}
  {t : Token}

theorem Blames.imp (h : Blames V ts e) (hV : ∀ {us}, V us → V' us) : Blames V' ts e := by
  intro he
  obtain ⟨us, t, post, cause, hts, hreject, hus⟩ := h he
  exact ⟨us, t, post, cause, hts, hreject, hV hus⟩

/-- An error that is passed on after a phrase has been read. -/
theorem Blames.prepend (h : Blames V r.withEnd e) (phrase : List Token)
    (htokens : s.tokens = phrase ++ r.tokens) (hend : r.ending = s.ending)
    (hV : ∀ {us t post}, r.withEnd = us ++ t :: post → V us → V' (phrase ++ us)) :
    Blames V' s.withEnd e := by
  intro he
  obtain ⟨us, t, post, cause, hts, hreject, hus⟩ := h he
  refine ⟨phrase ++ us, t, post, cause, ?_, hreject, hV hts hus⟩
  rw [List.append_assoc, ← hts, Stream.withEnd, Stream.withEnd, htokens, hend, List.append_assoc]

/-- An error that blames the token right after the phrase that has been read. -/
theorem Blames.after (h : Blames (· = []) r.withEnd e) {phrase : List Token}
    (htokens : s.tokens = phrase ++ r.tokens) (hend : r.ending = s.ending) (hV : V phrase) :
    Blames V s.withEnd e := by
  refine h.prepend phrase htokens hend ?_
  rintro us t post - rfl
  rwa [List.append_nil]

/-- The next token is the first one. The others are left, except that the end can be read again. -/
theorem Stream.exists_withEnd_of_next (hn : s.next = .ok (t, r)) :
    ∃ post, s.withEnd = t :: post ∧ (r.withEnd = post ∨ r.withEnd = s.withEnd) := by
  rw [next] at hn
  split at hn
  · next htokens =>
    cases hn
    exact ⟨_, by rw [withEnd, htokens]; rfl, .inl rfl⟩
  · next htokens =>
    split at hn
    · next hending =>
      cases hn
      exact ⟨[], by rw [withEnd, htokens, hending]; rfl, .inr (by rw [withEnd, withEnd, htokens])⟩
    · cases hn

theorem Stream.nextKind_of_withEnd {u : Token} {us : List Token} (h : s.withEnd = u :: us) :
    nextKind s.tokens = u.kind := by
  cases htokens : s.tokens with
  | cons t ts =>
    rw [withEnd, htokens, List.cons_append, List.cons.injEq] at h
    rw [nextKind_cons, h.1]
  | nil =>
    rw [withEnd, htokens, List.nil_append] at h
    split at h
    · cases h
      rfl
    · cases h

/-- The next token is rejected. -/
theorem Stream.blames_reject (hn : s.next = .ok (t, r)) (cause : String → GrammarCause)
    (hV : V []) : Blames V s.withEnd (t.reject cause) := by
  intro _
  obtain ⟨post, hpost, -⟩ := exists_withEnd_of_next hn
  exact ⟨[], t, post, cause, hpost, rfl, hV⟩

theorem Stream.blamesToken_of_next_error (h : s.next = .error e) : e.blamesToken = false := by
  rw [next] at h
  split at h
  · cases h
  · split at h
    · cases h
    · cases h
      rfl

/-- No token can be read. -/
theorem Stream.blames_of_next_error (h : s.next = .error e) : Blames V ts e := by
  intro he
  rw [blamesToken_of_next_error h] at he
  cases he

theorem Stream.blames_of_expect_error {kind : Token.Kind} {cause : String → GrammarCause}
    (h : s.expect kind cause = .error e) (hV : V []) : Blames V s.withEnd e := by
  rcases bind_eq_error.mp h with hn | ⟨⟨t, r⟩, hn, h⟩
  · exact blames_of_next_error hn
  · dsimp only at h
    split at h
    · cases h
    · cases h
      exact blames_reject hn cause hV

end

/-! ### Expressions -/

/-- A literal with which an operand that is missing is written down. -/
def Token.zero : Token :=
  Word.token ⟨.integer, ['0']⟩

theorem Token.spelled_zero : zero.word.Spelled := by
  rw [zero, Word.word_token]
  exact .integer ⟨by simp, by simp⟩

theorem Token.isLiteral_zero : IsLiteral zero (.int 0) :=
  .integer rfl (by decide)

namespace Expr

variable {inner : Int → Parser Expr} {power : Int} {t : Token} {us ts rest : List Token}
  {s s₀ r : Stream} {e lhs : Expr} {err : SyntaxError}

theorem viable_isAtom_nil : Viable IsAtom [] :=
  ⟨[.zero], .int 0, by simpa using Token.spelled_zero, fun _ _ => .literal Token.isLiteral_zero⟩

theorem viable_isOperand_of_isAtom (h : Viable IsAtom us) : Viable IsOperand us :=
  h.imp [] id fun hrest h => h.isOperand (Token.Kind.beginsExpr_of_closes hrest)

/-- A complete expression is viable. -/
theorem exists_viable_of_isExpr (h : IsExpr power ts e rest) :
    ∃ phrase, ts = phrase ++ rest ∧ Viable (IsExpr power) phrase := by
  obtain ⟨phrase, hts, -, hphrase⟩ := h.isPhrase
  refine ⟨phrase, hts, [], e, by simp, fun rest hrest => hphrase _ ?_⟩
  exact Token.Kind.beginsNoMore_of_eq_false (Token.Kind.beginsExpr_of_closes hrest)

/-- What the parser blames comes after a viable phrase. -/
def Blaming (p : Parser Expr) (power : Int) : Prop :=
  ∀ {s : Stream} {err : SyntaxError}, p.run s = .error err →
    Blames (Viable (IsExpr power)) s.withEnd err

theorem viable_isAtom_paren (ht : t.kind = .openParen) (h : Viable (IsExpr 0) us) :
    Viable IsAtom (t :: us) :=
  h.close .closeParen (by decide) rfl [t] id fun h => .paren ht h rfl

theorem blames_atom (hsound : ∀ power, Sound (inner power) power)
    (hblaming : ∀ power, Blaming (inner power) power) (hn : s₀.next = .ok (t, s))
    (h : atom (inner 0) t s = .error err) : Blames (Viable IsAtom) s₀.withEnd err := by
  rw [atom] at h
  split at h
  · split at h
    · cases h
    · cases h
      exact Stream.blames_reject hn _ viable_isAtom_nil
  · cases h
  · cases h
  · next hkind =>
    obtain ⟨htokens, hend⟩ := Stream.tokens_of_next hn (by simp [hkind])
    rcases bind_eq_error.mp h with hrun | ⟨⟨e, s₁⟩, hrun, h⟩
    · exact (hblaming 0 hrun).prepend [t] htokens hend
        fun _ => viable_isAtom_paren hkind
    · rcases bind_eq_error.mp h with hexpect | ⟨s₂, -, h⟩
      · obtain ⟨hexpr, -, hend'⟩ := hsound 0 hrun
        obtain ⟨phrase, hphrase, hviable⟩ := exists_viable_of_isExpr hexpr
        exact .after (Stream.blames_of_expect_error hexpect rfl) (by simp [htokens, hphrase])
          (hend'.trans hend) (viable_isAtom_paren hkind hviable)
      · cases h
  · cases h
    exact Stream.blames_reject hn _ viable_isAtom_nil

theorem isAtom_of_atom (hsound : ∀ power, Sound (inner power) power)
    (h : atom (inner 0) t s = .ok (e, r)) :
    IsAtom (t :: s.tokens) e r.tokens ∧ r.ending = s.ending := by
  rcases isLiteral_or_paren_of_atom hsound h with ⟨hliteral, rfl⟩ | ⟨c, hopen, hsum, hclose, hend⟩
  · exact ⟨.literal hliteral, rfl⟩
  · exact ⟨.paren hopen hsum hclose, hend⟩

theorem blames_arguments (hsound : ∀ power, Sound (inner power) power)
    (hblaming : ∀ power, Blaming (inner power) power)
    (h : arguments (inner 0) s = .error err) : Blames (Viable IsAtoms) s.withEnd err := by
  fun_induction arguments (inner 0) s with
  | case1 s e hn =>
    cases h
    exact Stream.blames_of_next_error hn
  | case2 s t r hn hk hlt e hargs ih =>
    cases h
    obtain ⟨htokens, hend⟩ := Stream.tokens_of_next hn (by simp [hk])
    exact (ih hargs).prepend [t] htokens hend
      fun _ hus => hus.imp [t] (.ref t.text [] :: ·) fun _ h => .cons (.name hk) h
  | case3 => cases h
  | case4 s t r hn hk hb e hatom =>
    cases h
    exact (blames_atom hsound hblaming hn hatom).imp
      fun hus => hus.imp [] ([·]) fun _ h => .cons h .nil
  | case5 s t r hn hk hb arg r' hatom hlt hle e hargs ih =>
    cases h
    have heof : t.kind ≠ .eof := fun heof => by simp [heof, Token.Kind.beginsExpr] at hb
    obtain ⟨htokens, hend⟩ := Stream.tokens_of_next hn heof
    obtain ⟨hisAtom, hend'⟩ := isAtom_of_atom hsound hatom
    obtain ⟨phrase, hphrase, -, hagain⟩ := hisAtom.isPhrase
    exact (ih hargs).prepend phrase (htokens.trans hphrase) (hend'.trans hend)
      fun _ hus => hus.imp phrase (arg :: ·) fun _ h => .cons (hagain _ trivial) h
  | case6 => cases h
  | case7 => cases h

theorem blames_operand (hsound : ∀ power, Sound (inner power) power)
    (hblaming : ∀ power, Blaming (inner power) power) (hn : s₀.next = .ok (t, s))
    (h : operand (inner 0) t s = .error err) : Blames (Viable IsOperand) s₀.withEnd err := by
  rw [operand] at h
  split at h
  · next hkind =>
    obtain ⟨htokens, hend⟩ := Stream.tokens_of_next hn (by simp [hkind])
    rcases bind_eq_error.mp h with hargs | ⟨p, -, h⟩
    · exact (blames_arguments hsound hblaming hargs).prepend [t] htokens hend fun _ hus =>
        hus.imp [t] (.ref t.text ·) fun hrest h =>
          .ref hkind h (Token.Kind.beginsExpr_of_closes hrest)
    · cases h
  · exact (blames_atom hsound hblaming hn h).imp viable_isOperand_of_isAtom

/-- What is to the left of an operator stays there, whatever follows the operator. -/
theorem IsLeftOperand.isPhrase (h : IsLeftOperand power ts lhs rest) :
    IsPhrase (IsLeftOperand power · lhs ·) Token.Inner (· = nextKind rest) ts rest := by
  have hpermitted {kind : Token.Kind} (h : kind = nextKind rest) :
      (nextKind rest).BeginsNoMore kind := by
    rw [h]
    exact id
  rcases h with h | ⟨hpower, h⟩ | ⟨hpower, h, hmul⟩
  · exact h.isPhrase.imp .inl hpermitted
  · exact h.isPhrase.imp (fun h => .inr (.inl ⟨hpower, h⟩)) hpermitted
  · obtain ⟨phrase, hts, hallowed, hphrase⟩ := h.isPhrase
    refine ⟨phrase, hts, hallowed, fun rest' hkind => ?_⟩
    exact .inr (.inr ⟨hpower, hphrase rest' (hpermitted hkind), hkind ▸ hmul⟩)

theorem blames_chain (hsound : ∀ power, Sound (inner power) power)
    (hblaming : ∀ power, Blaming (inner power) power) (h : chain inner power lhs s = .error err)
    (hlhs : IsLeftOperand power s₀.tokens lhs s.tokens) (hend : s.ending = s₀.ending) :
    Blames (Viable (IsExpr power)) s₀.withEnd err := by
  fun_induction chain inner power lhs s with
  | case1 lhs s e hn =>
    cases h
    exact Stream.blames_of_next_error hn
  | case2 => cases h
  | case3 lhs s t r hn hp hop =>
    cases h
    obtain ⟨phrase, hphrase, hviable⟩ := exists_viable_of_isExpr hlhs.isExpr
    exact .after (Stream.blames_reject hn _ rfl) hphrase hend hviable
  | case4 lhs s t r hn hp op hop e hrun =>
    cases h
    have hkind := Token.Kind.op?_eq_some hop
    obtain ⟨htokens, hend'⟩ := Stream.tokens_of_next hn (by simp [hkind])
    obtain ⟨phrase, hphrase, -, hagain⟩ := hlhs.isPhrase
    have hzero : 0 ≤ t.kind.leftPower := by rw [hkind]; cases op <;> decide
    refine (hblaming _ hrun).prepend (phrase ++ [t]) (by simp [hphrase, htokens])
      (hend'.trans hend) fun _ hus => ?_
    refine hus.imp (phrase ++ [t]) (.binary op lhs ·) fun {ts rhs rest} hrest hrhs => ?_
    -- What closes the right operand binds nothing.
    have hnext := Int.le_trans (Token.Kind.leftPower_of_closes hrest) hzero
    rw [List.append_assoc, List.singleton_append]
    refine (IsLeftOperand.join (hagain (t :: ts) ?_) hkind hp hrhs hnext).isExpr
    rw [htokens]
    rfl
  | case5 lhs s t r hn hp op hop rhs r' hrun hle hlt ih =>
    have hkind := Token.Kind.op?_eq_some hop
    obtain ⟨htokens, hend'⟩ := Stream.tokens_of_next hn (by simp [hkind])
    obtain ⟨hrhs, hnext, hend''⟩ := hsound _ hrun
    rw [htokens] at hlhs
    exact ih h (hlhs.join hkind hp hrhs hnext) ((hend''.trans hend').trans hend)

theorem blaming_level (hsound : ∀ power, Sound (inner power) power)
    (hblaming : ∀ power, Blaming (inner power) power) (power : Int) :
    Blaming (level inner power) power := by
  intro s err h
  rcases bind_eq_error.mp h with hn | ⟨⟨t, s₁⟩, hn, h⟩
  · exact Stream.blames_of_next_error hn
  rcases bind_eq_error.mp h with ho | ⟨⟨lhs, s₂⟩, ho, h⟩
  · exact (blames_operand hsound hblaming hn ho).imp
      fun hus => hus.imp [] id fun _ h => h.isExpr power
  · obtain ⟨hoperand, hend⟩ := isOperand_of_operand hsound ho
    have heof : t.kind ≠ .eof := fun heof => by simp [operand, atom, heof] at ho
    obtain ⟨htokens, hend'⟩ := Stream.tokens_of_next hn heof
    rw [← htokens] at hoperand
    exact blames_chain hsound hblaming h (.inl hoperand) (hend.trans hend')

/-- **Expressions.** The parser blames a token only if the tokens before it are viable. -/
theorem blaming_parserWithin (limit depth : Nat) (power : Int) :
    Blaming (parserWithin limit depth power) power := by
  induction depth generalizing power with
  | zero =>
    intro s err h he
    cases h
    cases he
  | succ depth ih => exact blaming_level (sound_parserWithin limit depth) ih power

end Expr

/-! ### Statements and blocks -/

/-- The rule for blocks, with body and tail as one. -/
def IsBlockOf (ts : List Token) (b : List Stmt × Expr) (rest : List Token) : Prop :=
  IsBlock ts b.1 b.2 rest

/-- What the parser blames comes after a viable phrase. -/
def Block.Blaming (block : List String → Parser Block) : Prop :=
  ∀ (params : List String) {s : Stream} {err : SyntaxError}, (block params).run s = .error err →
    Blames (Viable IsBlockOf) s.withEnd err

section

variable {expr : Parser Expr} {block : List String → Parser Block} {t name q : Token}
  {ts us names rest : List Token} {s s₀ r : Stream} {err : SyntaxError}

namespace Block

theorem viable_of_isExpr (h : Viable (IsExpr 0) us) : Viable IsBlockOf us :=
  h.imp [] ([], ·) fun hrest h => .tail h (Token.Kind.beginsStmt_of_closes hrest)

theorem viable_nil : Viable IsBlockOf [] :=
  viable_of_isExpr ((Expr.viable_isOperand_of_isAtom Expr.viable_isAtom_nil).imp [] id
    fun _ h => h.isExpr 0)

/-- A complete block is viable. -/
theorem exists_viable_of_isBlock {body : List Stmt} {tail : Expr} (h : IsBlock ts body tail rest) :
    ∃ phrase, ts = phrase ++ rest ∧ Viable IsBlockOf phrase := by
  obtain ⟨phrase, hts, -, hphrase⟩ := h.isPhrase
  exact ⟨phrase, hts, [], (body, tail), by simp,
    fun rest hrest => hphrase _ (Token.Kind.beginsStmt_of_closes hrest)⟩

end Block

namespace Stmt

theorem viable_print (ht : t.kind = .keyword .printWord) (h : Viable (IsExpr 0) us) :
    Viable IsKeywordStmt (t :: us) :=
  h.close .semicolon (by decide) rfl [t] .print fun h => .print ht h rfl

/-- An assignment whose header is complete. -/
theorem viable_assign (ht : t.kind = .keyword .letWord) (hname : name.kind = .identifier)
    (hnames : ∀ param ∈ names, param.kind = .identifier) (hdistinct : (names.map Token.text).Nodup)
    (hq : q.kind = .equals) (h : Viable IsBlockOf us) :
    Viable IsKeywordStmt ((t :: name :: (names ++ [q])) ++ us) := by
  refine h.close .semicolon (by decide) rfl _
    (fun b => .assign name.text ⟨names.map Token.text, b.1, b.2⟩) fun h => ?_
  rw [List.cons_append, List.cons_append, List.append_assoc]
  exact .assign ht hname hnames hdistinct hq h rfl

/-- An assignment whose header stops after some parameters. -/
theorem viable_header (ht : t.kind = .keyword .letWord) (hname : name.kind = .identifier)
    (hnames : ∀ param ∈ names, param.kind = .identifier)
    (hdistinct : (names.map Token.text).Nodup) : Viable IsKeywordStmt (t :: name :: names) := by
  have hequals : (Word.fixed .equals).Spelled := Word.spelled_fixed (by decide)
  have h : Viable IsKeywordStmt ((t :: name :: names) ++ [Word.token (.fixed .equals)]) := by
    simpa using viable_assign ht hname hnames hdistinct rfl Block.viable_nil
  exact h.of_append (by simpa using hequals)

theorem viable_let (ht : t.kind = .keyword .letWord) : Viable IsKeywordStmt [t] := by
  have hx : (Word.token ⟨.identifier, ['x']⟩).word.Spelled := by
    rw [Word.word_token]
    exact .name (by decide)
  have h : Viable IsKeywordStmt ([t] ++ [Word.token ⟨.identifier, ['x']⟩]) :=
    viable_header ht rfl (by simp) List.nodup_nil
  exact h.of_append (by simpa using hx)

theorem blames_parameters {params : List String} (h : parameters params s = .error err)
    (hparams : params.Nodup) :
    Blames (fun us => (∀ u ∈ us, u.kind = .identifier) ∧ (params ++ us.map Token.text).Nodup)
      s.withEnd err := by
  have hnil : (∀ u ∈ ([] : List Token), u.kind = .identifier) ∧
      (params ++ ([] : List Token).map Token.text).Nodup := by simpa using hparams
  fun_induction parameters params s with
  | case1 params s e hn =>
    cases h
    exact Stream.blames_of_next_error hn
  | case2 params s t r hn hk hmem =>
    cases h
    exact Stream.blames_reject hn _ hnil
  | case3 params s t r hn hk hmem hlt ih =>
    have hnodup : (params ++ [t.text]).Nodup := by
      simpa [List.nodup_append, hparams] using fun a ha => ne_of_mem_of_not_mem ha hmem
    obtain ⟨htokens, hend⟩ := Stream.tokens_of_next hn (by simp [hk])
    refine (ih h hnodup (by simpa using hnodup)).prepend [t] htokens hend fun _ hus => ?_
    obtain ⟨hkinds, hdistinct⟩ := hus
    exact ⟨by simpa [hk] using hkinds, by simpa using hdistinct⟩
  | case4 => cases h
  | case5 params s t r hn hk he =>
    cases h
    exact Stream.blames_reject hn _ hnil

theorem blames_printRest (hsound : Expr.Sound expr 0) (hblaming : Expr.Blaming expr 0)
    (ht : t.kind = .keyword .printWord) (hn : s₀.next = .ok (t, s))
    (h : printRest expr s = .error err) : Blames (Viable IsKeywordStmt) s₀.withEnd err := by
  obtain ⟨htokens, hend⟩ := Stream.tokens_of_next hn (by simp [ht])
  rcases bind_eq_error.mp h with hrun | ⟨⟨e, s₁⟩, hrun, h⟩
  · exact (hblaming hrun).prepend [t] htokens hend fun _ => viable_print ht
  rcases bind_eq_error.mp h with hexpect | ⟨s₂, -, h⟩
  · obtain ⟨hexpr, -, hend'⟩ := hsound hrun
    obtain ⟨phrase, hphrase, hviable⟩ := Expr.exists_viable_of_isExpr hexpr
    exact .after (Stream.blames_of_expect_error hexpect rfl) (by simp [htokens, hphrase])
      (hend'.trans hend) (viable_print ht hviable)
  · cases h

theorem blames_assignRest (hsound : Block.Sound block) (hblaming : Block.Blaming block)
    (ht : t.kind = .keyword .letWord) (hn : s₀.next = .ok (t, s))
    (h : assignRest block s = .error err) : Blames (Viable IsKeywordStmt) s₀.withEnd err := by
  obtain ⟨htokens, hend⟩ := Stream.tokens_of_next hn (by simp [ht])
  rcases bind_eq_error.mp h with hn₁ | ⟨⟨name, s₁⟩, hn₁, h⟩
  · exact Stream.blames_of_next_error hn₁
  dsimp only at h
  split at h
  · next hname =>
    obtain ⟨htokens₁, hend₁⟩ := Stream.tokens_of_next hn₁ (by simp [hname])
    rcases bind_eq_error.mp h with hparams | ⟨⟨params, s₂⟩, hparams, h⟩
    · refine (blames_parameters hparams List.nodup_nil).prepend [t, name]
        (by simp [htokens, htokens₁]) (hend₁.trans hend) fun _ hus => ?_
      exact viable_header ht hname hus.1 (by simpa using hus.2)
    obtain ⟨names, q, htokens₂, hnames, hq, rfl, hdistinct, hend₂⟩ :=
      tokens_of_parameters hparams List.nodup_nil
    have hheader : s₀.tokens = (t :: name :: (names ++ [q])) ++ s₂.tokens := by
      simp [htokens, htokens₁, htokens₂]
    have hend' := (hend₂.trans hend₁).trans hend
    rcases bind_eq_error.mp h with hrun | ⟨⟨b, s₃⟩, hrun, h⟩
    · exact (hblaming _ hrun).prepend _ hheader hend'
        fun _ => viable_assign ht hname hnames hdistinct hq
    rcases bind_eq_error.mp h with hexpect | ⟨s₄, -, h⟩
    · obtain ⟨body, tail, -, hblock, hend₃⟩ := hsound hrun
      obtain ⟨phrase, hphrase, hviable⟩ := Block.exists_viable_of_isBlock hblock
      refine .after (Stream.blames_of_expect_error hexpect rfl) ?_ (hend₃.trans hend')
        (viable_assign ht hname hnames hdistinct hq hviable)
      rw [hheader, List.append_assoc, ← hphrase]
    · cases h
  · cases h
    exact .after (Stream.blames_reject hn₁ _ rfl) htokens hend (viable_let ht)

theorem blames_keywordRest (hexpr : Expr.Sound expr 0) (hexpr' : Expr.Blaming expr 0)
    (hblock : Block.Sound block) (hblock' : Block.Blaming block) {word : Keyword}
    (ht : t.kind = .keyword word) (hn : s₀.next = .ok (t, s))
    (h : keywordRest expr block word s = .error err) :
    Blames (Viable IsKeywordStmt) s₀.withEnd err := by
  cases word with
  | printWord => exact blames_printRest hexpr hexpr' ht hn h
  | letWord => exact blames_assignRest hblock hblock' ht hn h

end Stmt

namespace Block

/-- A viable statement is a viable block, with a tail after it. -/
theorem viable_of_isKeywordStmt (h : Viable IsKeywordStmt us) : Viable IsBlockOf us := by
  obtain ⟨ws, stmt, hws, h⟩ := h
  refine ⟨ws ++ [.zero], ([stmt], .int 0), ?_, fun rest hrest => ?_⟩
  · simpa [or_imp, forall_and] using ⟨hws, Token.spelled_zero⟩
  · -- Anything may follow the semicolon of the statement, so the tail may.
    obtain ⟨phrase, hphrase, -, hagain⟩ := (h rest hrest).isPhrase
    rw [← List.append_assoc] at hphrase
    obtain rfl := List.append_cancel_right hphrase
    have htail : IsBlock (.zero :: rest) [] (.int 0) rest :=
      .tail (.product (.operand (.literal Token.isLiteral_zero)))
        (Token.Kind.beginsStmt_of_closes hrest)
    have hstmt := hagain (.zero :: rest) trivial
    simpa [IsBlockOf] using IsBlock.stmt hstmt htail

/-- An expression in front of a viable block. If the first token of the block is the one to blame,
then the expression is the tail instead. -/
theorem viable_append_of_isSum {e : Expr} {phrase post : List Token}
    (hphrase : ∀ rest, (nextKind r.tokens).BeginsNoMore (nextKind rest) →
      IsSum (phrase ++ rest) e rest)
    (hnext : (nextKind r.tokens).beginsStmt = true) (hus : r.withEnd = us ++ t :: post)
    (h : Viable IsBlockOf us) : Viable IsBlockOf (phrase ++ us) := by
  cases us with
  | nil =>
    refine ⟨[], ([], e), by simp, fun rest hrest => ?_⟩
    rw [List.append_nil]
    refine .tail (hphrase rest ?_) (Token.Kind.beginsStmt_of_closes hrest)
    exact Token.Kind.beginsNoMore_of_eq_false (Token.Kind.beginsExpr_of_closes hrest)
  | cons u us =>
    obtain ⟨ws, b, hws, h⟩ := h
    have hkind : nextKind r.tokens = u.kind := Stream.nextKind_of_withEnd hus
    refine ⟨ws, (.expr e :: b.1, b.2), hws, fun rest hrest => ?_⟩
    rw [List.append_assoc]
    rw [hkind] at hnext
    refine .expr (hphrase _ ?_) hnext (h rest hrest)
    rw [hkind]
    exact id

theorem blames_parts (hexpr : Expr.Sound expr 0) (hexpr' : Expr.Blaming expr 0)
    (hblock : Block.Sound block) (hblock' : Block.Blaming block)
    (h : parts expr block s = .error err) : Blames (Viable IsBlockOf) s.withEnd err := by
  fun_induction parts expr block s with
  | case1 s e hn =>
    cases h
    exact Stream.blames_of_next_error hn
  | case2 s t r hn word hk e hrest =>
    cases h
    exact (Stmt.blames_keywordRest hexpr hexpr' hblock hblock' hk hn hrest).imp
      viable_of_isKeywordStmt
  | case3 s t r hn word hk stmt r' hrest hle hlt e hparts ih =>
    cases h
    obtain ⟨htokens, hend⟩ := Stream.tokens_of_next hn (by simp [hk])
    obtain ⟨hstmt, hend'⟩ := Stmt.isKeywordStmt_of_keywordRest hexpr hblock hk hrest
    obtain ⟨phrase, hphrase, -, hagain⟩ := hstmt.isPhrase
    exact (ih hparts).prepend phrase (htokens.trans hphrase) (hend'.trans hend) fun _ hus =>
      hus.imp phrase (fun b => (stmt :: b.1, b.2)) fun _ h => .stmt (hagain _ trivial) h
  | case4 => cases h
  | case5 s t r hn e hrun hk hb =>
    cases h
    exact (hexpr' hrun).imp viable_of_isExpr
  | case6 s t r hn e s' hrun hlt e' hn' =>
    cases h
    exact Stream.blames_of_next_error hn'
  | case7 s t r hn e s' hrun hlt follow r' hn' hstmt e' hparts hk hb ih =>
    cases h
    obtain ⟨hsum, -, hend⟩ := hexpr hrun
    obtain ⟨phrase, hphrase, -, hagain⟩ := IsSum.isPhrase hsum
    rw [Stream.kind_of_next hn'] at hstmt
    exact (ih hparts).prepend phrase hphrase hend (viable_append_of_isSum hagain hstmt)
  | case8 => cases h
  | case9 => cases h
  | case10 s t r hn hk hb =>
    cases h
    exact Stream.blames_reject hn _ viable_nil

/-- **Blocks.** The parser blames a token only if the tokens before it are viable. -/
theorem blaming_parserWithin (limit depth : Nat) : Blaming (parserWithin limit depth) := by
  induction depth with
  | zero =>
    intro params s err h he
    cases h
    cases he
  | succ depth ih =>
    intro params s err h
    rcases bind_eq_error.mp h with hparts | ⟨p, -, h⟩
    · exact blames_parts (Expr.sound_parserWithin limit depth 0)
        (Expr.blaming_parserWithin limit depth 0) (sound_parserWithin limit depth) ih hparts
    · cases h

end Block

/-- **Statements.** The parser blames the first token, or one before which the tokens are viable. -/
theorem Stmt.blames_run {limit : Nat} (h : (parserWithin limit).run s = .error err) :
    Blames (fun us => us = [] ∨ Viable IsStmt us) s.withEnd err := by
  have hexpr : Expr.Sound (Expr.parserWithin limit limit 0) 0 :=
    Expr.sound_parserWithin limit limit 0
  have hexpr' : Expr.Blaming (Expr.parserWithin limit limit 0) 0 :=
    Expr.blaming_parserWithin limit limit 0
  have hblock : Block.Sound (Block.parserWithin limit limit) := Block.sound_parserWithin limit limit
  have hblock' := Block.blaming_parserWithin limit limit
  rcases bind_eq_error.mp h with hn | ⟨⟨t, s₁⟩, hn, h⟩
  · exact Stream.blames_of_next_error hn
  dsimp only at h
  split at h
  · next word hk =>
    exact (blames_keywordRest hexpr hexpr' hblock hblock' hk hn h).imp
      fun hus => .inr (hus.imp [] id fun _ h => .keyword h)
  · split at h
    · rcases bind_eq_error.mp h with hrun | ⟨⟨e, s₂⟩, hrun, h⟩
      · refine (hexpr' hrun).imp fun hus => .inr ?_
        exact hus.close .semicolon (by decide) rfl [] .expr fun h => .ended h rfl
      · rcases bind_eq_error.mp h with hn' | ⟨p, -, h⟩
        · exact Stream.blames_of_next_error hn'
        · dsimp only at h
          split at h <;> cases h
    · cases h
      exact Stream.blames_reject hn _ (.inl rfl)

/-! ### Programs -/

/-- The tokens can be continued to a program, by properly written words. -/
def Program.Viable (us : List Token) : Prop :=
  ∃ ws p, (∀ w ∈ ws, w.word.Spelled) ∧ IsProgram (us ++ ws) p

/-- A statement in front of a viable program. If the first token of the program is the one to blame,
then the program may as well end before it. -/
theorem Program.viable_append_of_isStmt {stmt : Stmt} {phrase post : List Token}
    (hphrase : ∀ rest, nextKind rest = nextKind r.tokens ∨ nextKind rest = .eof →
      IsStmt (phrase ++ rest) stmt rest)
    (hus : r.withEnd = us ++ t :: post) (h : Program.Viable us) :
    Program.Viable (phrase ++ us) := by
  cases us with
  | nil =>
    refine ⟨[], [stmt], by simp, ?_⟩
    rw [List.append_nil]
    exact .cons (hphrase [] (.inr rfl)) .nil
  | cons u us =>
    obtain ⟨ws, p, hws, h⟩ := h
    have hkind : nextKind r.tokens = u.kind := Stream.nextKind_of_withEnd hus
    refine ⟨ws, stmt :: p, hws, ?_⟩
    rw [List.append_assoc]
    exact .cons (hphrase _ (.inl hkind.symm)) h

/-- **The tokens before a blamed one can be continued to a program.** -/
theorem Program.blames_statements {limit : Nat}
    (h : statements (Stmt.parserWithin limit) s = .error err) :
    Blames Program.Viable s.withEnd err := by
  fun_induction statements (Stmt.parserWithin limit) s with
  | case1 s e hn =>
    cases h
    exact Stream.blames_of_next_error hn
  | case2 => cases h
  | case3 s t r hn ht e hrun =>
    cases h
    refine (Stmt.blames_run hrun).imp fun {us} hus => ?_
    rcases hus with rfl | ⟨ws, stmt, hws, hstmt⟩
    · exact ⟨[], [], by simp, .nil⟩
    · refine ⟨ws, [stmt], hws, .cons ?_ .nil⟩
      simpa using hstmt [] rfl
  | case4 s t r hn ht first s' hrun hlt e hrest ih =>
    cases h
    obtain ⟨hstmt, hend⟩ := Stmt.sound_parserWithin hrun
    obtain ⟨phrase, hphrase, -, hagain⟩ := hstmt.isPhrase
    exact (ih hrest).prepend phrase hphrase hend (viable_append_of_isStmt hagain)
  | case5 => cases h

end

end Blockscript
