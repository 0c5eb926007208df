import Blockscript.Proofs.ExprParsing
import Blockscript.Stmt.Parser

/-!
# Parsers that read side by side

A parser gets to know a stream only by asking for the next token, and of a token it looks at the
kind and the text. So when a parser is run on two streams that offer the same kinds and texts, the
two runs go the same way: they end with the same tree, or with errors that differ in nothing but the
places that are blamed.

Two streams need not agree to their ends. A `Comparison` says up to where they do. If the parser
looks further, nothing is said about the run on the right any more, but it is known that the run on
the left has come that far: whatever it leaves, and whatever it blames, lies past the end of the
agreement.

## The shape of the argument

The streams that lie past the end are compared with themselves (`Comparison.beyond`), so all facts
about parsers are stated for every comparison at once. A run that leaves the agreement is then
carried on by the same fact, for another comparison.

## Main definitions

* `Comparison` : which streams and errors agree, and which lie past the end of the agreement.
* `Comparison.Outcome`, `Comparison.Verdict` : how two runs end.
* `Comparison.throughout` : a comparison of streams that agree to their ends.
* `Parser.Faithful` : the parser ends alike on streams that agree.

## Main results

* `Comparison.Outcome.bind`, `Comparison.next_bind` : runs are compared step by step.
* `Expr.faithful_parserWithin`, `Block.faithful_parserWithin`, `Stmt.faithful_parserWithin` : the
  parsers are faithful.
* `Program.verdict_statements` : whole programs.
-/

namespace Blockscript

/-! ### The loops of the parsers, one round at a time -/

theorem Expr.arguments_eq (inner : Parser Expr) (s : Stream) :
    arguments inner s = s.next >>= fun p =>
      if p.1.kind = .identifier then
        arguments inner p.2 >>= fun q => .ok (.ref p.1.text [] :: q.1, q.2)
      else if p.1.kind.beginsExpr then
        atom inner p.1 p.2 >>= fun a => arguments inner a.2 >>= fun q => .ok (a.1 :: q.1, q.2)
      else .ok ([], s) := by
  fun_cases arguments inner s <;> simp_all [bind, Except.bind]

theorem Expr.chain_eq (inner : Int → Parser Expr) (power : Int) (lhs : Expr) (s : Stream) :
    chain inner power lhs s = s.next >>= fun p =>
      if p.1.kind.leftPower ≤ power then .ok (lhs, s)
      else match p.1.kind.op? with
        | none => .error (p.1.reject .unknownOperator)
        | some op => (inner p.1.kind.leftPower).run p.2 >>= fun q =>
          chain inner power (.binary op lhs q.1) q.2 := by
  fun_cases chain inner power lhs s with
  | case5 t r hn hp op hop rhs r' hr => simp [hn, hp, hop, hr, bind, Except.bind]
  | _ => simp_all [bind, Except.bind]

theorem Stmt.parameters_eq (params : List String) (s : Stream) :
    parameters params s = s.next >>= fun p =>
      if p.1.kind = .identifier then
        if p.1.text ∈ params then .error (p.1.reject .duplicateParameter)
        else parameters (params ++ [p.1.text]) p.2
      else if p.1.kind = .equals then .ok (params, p.2)
      else .error (p.1.reject .invalidAssignment) := by
  fun_cases parameters params s <;> simp_all [bind, Except.bind]

theorem Block.parts_eq (expr : Parser Expr) (block : List String → Parser Block) (s : Stream) :
    parts expr block s = s.next >>= fun p =>
      match p.1.kind with
      | .keyword word => Stmt.keywordRest expr block word p.2 >>= fun q =>
        parts expr block q.2 >>= fun u => .ok ((q.1 :: u.1.1, u.1.2), u.2)
      | kind =>
        if kind.beginsExpr then
          expr.run s >>= fun q => q.2.next >>= fun f =>
            if f.1.kind.beginsStmt then
              parts expr block q.2 >>= fun u => .ok ((.expr q.1 :: u.1.1, u.1.2), u.2)
            else .ok (([], q.1), q.2)
        else .error (p.1.reject .missingTail) := by
  fun_cases parts expr block s <;> simp_all [bind, Except.bind]

theorem Program.statements_eq (stmt : Parser Stmt) (s : Stream) :
    statements stmt s = s.next >>= fun p =>
      if p.1.kind = .eof then .ok []
      else stmt.run s >>= fun q => statements stmt q.2 >>= fun rest => .ok (q.1 :: rest) := by
  fun_cases statements stmt s <;> simp_all [bind, Except.bind]

/-- To relate two runs that look whether a token is a keyword, relate what each does in either
case. -/
theorem Token.Kind.rel_of_keyword {α β : Type} {Rel : α → β → Prop} {kind : Token.Kind}
    {f : Keyword → α} {g : Keyword → β} {f' : Token.Kind → α} {g' : Token.Kind → β} :
    (∀ word, kind = .keyword word → Rel (f word) (g word)) → Rel (f' kind) (g' kind) →
      Rel
        (match kind with
          | .keyword word => f word
          | kind => f' kind)
        (match kind with
          | .keyword word => g word
          | kind => g' kind) := by
  intro hkeyword hother
  cases kind with
  | keyword word => exact hkeyword word rfl
  | _ => exact hother

/-! ### Comparisons -/

/-- A way to compare two streams, the one on the left being the one of which something is known. -/
structure Comparison where
  /-- The streams agree from here on, as far as the comparison goes. -/
  Same : Stream → Stream → Prop
  /-- The errors agree. -/
  SameError : SyntaxError → SyntaxError → Prop
  /-- The stream lies past the end of the agreement. -/
  Past : Stream → Prop
  /-- The error blames something past the end of the agreement. -/
  PastError : SyntaxError → Prop
  /-- Streams that agree offer the same token, or the same fault, unless the agreement ends here. -/
  next {s s' : Stream} (h : Same s s') :
    Past s ∨ (∃ e e', s.next = .error e ∧ s'.next = .error e' ∧ SameError e e') ∨
      ∃ t t' r r', s.next = .ok (t, r) ∧ s'.next = .ok (t', r') ∧ t.kind = t'.kind ∧
        t.text = t'.text ∧ (∀ cause, SameError (t.reject cause) (t'.reject cause)) ∧ Same r r'
  /-- Nesting too deeply is the same error on both sides. -/
  tooDeep {s s' : Stream} (h : Same s s') (limit : Nat) :
    SameError (s.tooDeep limit) (s'.tooDeep limit)
  /-- What comes next past the end lies past the end. -/
  past_next {s : Stream} (h : Past s) :
    (∃ e, s.next = .error e ∧ PastError e) ∨
      ∃ t r, s.next = .ok (t, r) ∧ (∀ cause, PastError (t.reject cause)) ∧ Past r
  /-- Nesting too deeply past the end is an error past the end. -/
  past_tooDeep {s : Stream} (h : Past s) (limit : Nat) : PastError (s.tooDeep limit)

namespace Comparison

/-- Tokens that agree. -/
structure SameToken (c : Comparison) (t t' : Token) : Prop where
  kind : t.kind = t'.kind
  text : t.text = t'.text
  reject : ∀ cause, c.SameError (t.reject cause) (t'.reject cause)

/-- Two runs of a parser: they leave streams that agree, or fail alike, or the left one has come
past the end of the agreement. -/
inductive Outcome (c : Comparison) {α : Type} :
    Except SyntaxError (α × Stream) → Except SyntaxError (α × Stream) → Prop where
  | ok {a : α} {r r' : Stream} (h : c.Same r r') : Outcome c (.ok (a, r)) (.ok (a, r'))
  | error {e e' : SyntaxError} (h : c.SameError e e') : Outcome c (.error e) (.error e')
  | pastOk {a : α} {r : Stream} {y : Except SyntaxError (α × Stream)} (h : c.Past r) :
    Outcome c (.ok (a, r)) y
  | pastError {e : SyntaxError} {y : Except SyntaxError (α × Stream)} (h : c.PastError e) :
    Outcome c (.error e) y

/-- Two runs to the end of the text. If the left one has come past the end of the agreement, nothing
but the place of its error is known. -/
inductive Verdict (c : Comparison) {α : Type} :
    Except SyntaxError α → Except SyntaxError α → Prop where
  | ok (a : α) : Verdict c (.ok a) (.ok a)
  | error {e e' : SyntaxError} (h : c.SameError e e') : Verdict c (.error e) (.error e')
  | pastOk {a : α} {r : Stream} {y : Except SyntaxError α} (h : c.Past r) : Verdict c (.ok a) y
  | pastError {e : SyntaxError} {y : Except SyntaxError α} (h : c.PastError e) :
    Verdict c (.error e) y

/-- A comparison of streams that agree to their ends, so that nothing lies past the agreement. -/
def throughout (Same : Stream → Stream → Prop) (SameError : SyntaxError → SyntaxError → Prop)
    (next : ∀ {s s' : Stream}, Same s s' →
      (∃ e e', s.next = .error e ∧ s'.next = .error e' ∧ SameError e e') ∨
        ∃ t t' r r', s.next = .ok (t, r) ∧ s'.next = .ok (t', r') ∧ t.kind = t'.kind ∧
          t.text = t'.text ∧ (∀ cause, SameError (t.reject cause) (t'.reject cause)) ∧ Same r r')
    (tooDeep : ∀ {s s' : Stream}, Same s s' → ∀ limit,
      SameError (s.tooDeep limit) (s'.tooDeep limit)) : Comparison where
  Same := Same
  SameError := SameError
  Past _ := False
  PastError _ := False
  next h := .inr (next h)
  tooDeep := tooDeep
  past_next h := h.elim
  past_tooDeep h := h.elim

/-- What lies past the end, compared with itself. -/
def beyond (c : Comparison) : Comparison :=
  throughout (fun s s' => s = s' ∧ c.Past s) (fun e e' => e = e' ∧ c.PastError e)
    (fun {s s'} h => by
      obtain ⟨rfl, h⟩ := h
      rcases c.past_next h with ⟨e, hn, he⟩ | ⟨t, r, hn, ht, hr⟩
      · exact .inl ⟨e, e, hn, hn, rfl, he⟩
      · exact .inr ⟨t, t, r, r, hn, hn, rfl, rfl, fun cause => ⟨rfl, ht cause⟩, rfl, hr⟩)
    (fun h limit => ⟨by rw [h.1], c.past_tooDeep h.2 limit⟩)

variable {c : Comparison} {α β : Type} {s s' : Stream}

/-- Whatever is done past the end leads to something past the end. -/
theorem Outcome.of_beyond {x y z : Except SyntaxError (α × Stream)} (h : c.beyond.Outcome x y) :
    c.Outcome x z := by
  cases h with
  | ok h => exact .pastOk h.2
  | error h => exact .pastError h.2
  | pastOk h => exact h.elim
  | pastError h => exact h.elim

theorem Verdict.of_beyond {x y z : Except SyntaxError α} (hs : c.Past s)
    (h : c.beyond.Verdict x y) : c.Verdict x z := by
  cases h with
  | ok a => exact .pastOk hs
  | error h => exact .pastError h.2
  | pastOk h => exact h.elim
  | pastError h => exact h.elim

/-! ### Runs step by step -/

/-- What agrees step by step agrees. The next step has to agree for every comparison, since the
first one may have come past the end. -/
theorem Outcome.bind {x y : Except SyntaxError (α × Stream)}
    {f : α × Stream → Except SyntaxError (β × Stream)} (h : c.Outcome x y)
    (hf : ∀ (d : Comparison) {a : α} {r r' : Stream}, x = .ok (a, r) → d.Same r r' →
      d.Outcome (f (a, r)) (f (a, r'))) :
    c.Outcome (x >>= f) (y >>= f) := by
  cases h with
  | ok h => exact hf c rfl h
  | error h => exact .error h
  | pastOk h => exact (hf c.beyond rfl ⟨rfl, h⟩).of_beyond
  | pastError h => exact .pastError h

theorem Outcome.bind_verdict {x y : Except SyntaxError (α × Stream)}
    {f : α × Stream → Except SyntaxError β} (h : c.Outcome x y)
    (hf : ∀ (d : Comparison) {a : α} {r r' : Stream}, x = .ok (a, r) → d.Same r r' →
      d.Verdict (f (a, r)) (f (a, r'))) :
    c.Verdict (x >>= f) (y >>= f) := by
  cases h with
  | ok h => exact hf c rfl h
  | error h => exact .error h
  | pastOk h => exact (hf c.beyond rfl ⟨rfl, h⟩).of_beyond h
  | pastError h => exact .pastError h

theorem Verdict.bind_ok {x y : Except SyntaxError α} (h : c.Verdict x y) (f : α → β) :
    c.Verdict (x >>= fun a => .ok (f a)) (y >>= fun a => .ok (f a)) := by
  cases h with
  | ok a => exact .ok (f a)
  | error h => exact .error h
  | pastOk h => exact .pastOk h
  | pastError h => exact .pastError h

/-- Asking for the next token, where `P` is any way to say that two runs end alike. What is done
with the token may depend on the stream as it was before. -/
theorem next_bind {P : Comparison → Except SyntaxError α → Except SyntaxError α → Prop}
    (herror : ∀ {e e'}, c.SameError e e' → P c (.error e) (.error e'))
    (hpastError : ∀ {e y}, c.PastError e → P c (.error e) y)
    (hbeyond : c.Past s → ∀ {x y z}, P c.beyond x y → P c x z) (h : c.Same s s')
    {f : Stream → Token × Stream → Except SyntaxError α}
    (hf : ∀ (d : Comparison) {s' r r' : Stream} {t t' : Token}, d.Same s s' →
      s.next = .ok (t, r) → d.SameToken t t' → d.Same r r' → P d (f s (t, r)) (f s' (t', r'))) :
    P c (s.next >>= f s) (s'.next >>= f s') := by
  rcases c.next h with hpast | ⟨e, e', hn, hn', he⟩ | ⟨t, t', r, r', hn, hn', hk, ht, hc, hr⟩
  · rcases c.past_next hpast with ⟨e, hn, he⟩ | ⟨t, r, hn, ht, hr⟩
    · rw [hn]
      exact hpastError he
    · have hstep := hf c.beyond ⟨rfl, hpast⟩ hn ⟨rfl, rfl, fun cause => ⟨rfl, ht cause⟩⟩ ⟨rfl, hr⟩
      rw [hn]
      exact hbeyond hpast hstep
  · rw [hn, hn']
    exact herror he
  · rw [hn, hn']
    exact hf c h hn ⟨hk, ht, hc⟩ hr

theorem outcome_next (h : c.Same s s')
    {f : Stream → Token × Stream → Except SyntaxError (α × Stream)}
    (hf : ∀ (d : Comparison) {s' r r' : Stream} {t t' : Token}, d.Same s s' →
      s.next = .ok (t, r) → d.SameToken t t' → d.Same r r' →
      d.Outcome (f s (t, r)) (f s' (t', r'))) :
    c.Outcome (s.next >>= f s) (s'.next >>= f s') :=
  next_bind (P := fun d => d.Outcome) .error .pastError (fun _ => Outcome.of_beyond) h hf

theorem verdict_next (h : c.Same s s') {f : Stream → Token × Stream → Except SyntaxError α}
    (hf : ∀ (d : Comparison) {s' r r' : Stream} {t t' : Token}, d.Same s s' →
      s.next = .ok (t, r) → d.SameToken t t' → d.Same r r' →
      d.Verdict (f s (t, r)) (f s' (t', r'))) :
    c.Verdict (s.next >>= f s) (s'.next >>= f s') :=
  next_bind (P := fun d => d.Verdict) .error .pastError (fun hs => Verdict.of_beyond hs) h hf

/-- A token that is due, and what is done after it. -/
theorem outcome_expect (h : c.Same s s') (kind : Token.Kind) (cause : String → GrammarCause)
    {f : Stream → Except SyntaxError (α × Stream)}
    (hf : ∀ (d : Comparison) {r r' : Stream}, d.Same r r' → d.Outcome (f r) (f r')) :
    c.Outcome (s.expect kind cause >>= f) (s'.expect kind cause >>= f) := by
  have key (s : Stream) : s.expect kind cause >>= f = s.next >>= fun p =>
      if p.1.kind = kind then f p.2 else .error (p.1.reject cause) := by
    rw [Stream.expect]
    cases s.next with
    | error e => rfl
    | ok p =>
      simp only [bind, Except.bind]
      by_cases hkind : p.1.kind = kind
      · simp only [hkind, if_true]
      · simp only [hkind, if_false]
  rw [key, key]
  apply outcome_next h
  intro d s' r r' t t' _ hn ht hr
  dsimp only
  rw [← ht.kind]
  split
  · exact hf d hr
  · exact .error (ht.reject cause)

end Comparison

/-- The parser ends alike on streams that agree, whatever the comparison. -/
def Parser.Faithful {α : Type} (p : Parser α) : Prop :=
  ∀ (c : Comparison) {s s' : Stream}, c.Same s s' → c.Outcome (p.run s) (p.run s')

theorem Parser.faithful_tooDeep {α : Type} (limit : Nat) :
    (Parser.tooDeep limit : Parser α).Faithful :=
  fun c _ _ h => .error (c.tooDeep h limit)

open Comparison

/-! ### Expressions -/

namespace Expr

variable {c : Comparison} {inner : Int → Parser Expr} {p : Parser Expr} {t t' : Token}

theorem outcome_atom (hp : p.Faithful) (ht : c.SameToken t t') {s s' : Stream}
    (h : c.Same s s') : c.Outcome (atom p t s) (atom p t' s') := by
  rw [atom, atom, ← ht.kind, ← ht.text]
  split
  · split
    · exact .ok h
    · exact .error (ht.reject _)
  · exact .ok h
  · exact .ok h
  · refine (hp c h).bind fun d a r r' _ hr => ?_
    exact outcome_expect hr .closeParen .unclosedParen fun d r r' hr => .ok hr
  · exact .error (ht.reject _)

theorem outcome_arguments (hp : p.Faithful) (c : Comparison) {s s' : Stream}
    (h : c.Same s s') : c.Outcome (arguments p s) (arguments p s') := by
  rw [arguments_eq p s, arguments_eq p s']
  apply outcome_next h
  intro d s' r r' t t' hs hn ht hr
  dsimp only
  rw [← ht.kind, ← ht.text]
  split
  · next hident =>
    have hlt := Stream.size_lt_of_next hn (by simp [hident])
    exact (outcome_arguments hp d hr).bind fun d a r r' _ hr => .ok hr
  · split
    · next hbegins =>
      have hlt := Stream.size_lt_of_next hn fun heof => by
        rw [heof] at hbegins
        cases hbegins
      refine (outcome_atom hp ht hr).bind fun d a r₁ r₁' hatom hr₁ => ?_
      have hle := size_le_of_atom hatom
      exact (outcome_arguments hp d hr₁).bind fun d a r r' _ hr => .ok hr
    · exact .ok hs
termination_by s.size

theorem outcome_operand (hp : p.Faithful) (ht : c.SameToken t t') {s s' : Stream}
    (h : c.Same s s') : c.Outcome (operand p t s) (operand p t' s') := by
  rw [operand, operand, ← ht.kind, ← ht.text]
  split
  · exact (outcome_arguments hp c h).bind fun d a r r' _ hr => .ok hr
  · exact outcome_atom hp ht h

theorem outcome_chain (hinner : ∀ power, (inner power).Faithful) (c : Comparison) (power : Int)
    (lhs : Expr) {s s' : Stream} (h : c.Same s s') :
    c.Outcome (chain inner power lhs s) (chain inner power lhs s') := by
  rw [chain_eq inner power lhs s, chain_eq inner power lhs s']
  apply outcome_next h
  intro d s' r r' t t' hs hn ht hr
  dsimp only
  rw [← ht.kind]
  split
  · exact .ok hs
  · split
    · exact .error (ht.reject _)
    · refine (hinner _ d hr).bind fun d rhs r₁ r₁' hrun hr₁ => ?_
      have hle := Stream.size_le_of_next hn
      have hlt := (inner _).size_lt hrun
      exact outcome_chain hinner d power _ hr₁
termination_by s.size

theorem faithful_level (hinner : ∀ power, (inner power).Faithful) (power : Int) :
    (level inner power).Faithful := by
  intro c s s' h
  dsimp only [level]
  apply outcome_next h
  intro d s' r r' t t' _ _ ht hr
  refine (outcome_operand (hinner 0) ht hr).bind fun d lhs r r' _ hr => ?_
  exact outcome_chain hinner d power lhs hr

/-- **The parser for expressions is faithful.** -/
theorem faithful_parserWithin (limit depth : Nat) (power : Int) :
    (parserWithin limit depth power).Faithful := by
  induction depth generalizing power with
  | zero => exact Parser.faithful_tooDeep limit
  | succ depth ih => exact faithful_level ih power

end Expr

/-! ### Statements, blocks and programs -/

section

variable {expr : Parser Expr} {block : List String → Parser Block}

theorem Stmt.outcome_parameters (c : Comparison) (params : List String) {s s' : Stream}
    (h : c.Same s s') : c.Outcome (parameters params s) (parameters params s') := by
  rw [parameters_eq params s, parameters_eq params s']
  apply outcome_next h
  intro d s' r r' t t' hs hn ht hr
  dsimp only
  rw [← ht.kind, ← ht.text]
  split
  · next hident =>
    have hlt := Stream.size_lt_of_next hn (by simp [hident])
    split
    · exact .error (ht.reject _)
    · exact outcome_parameters d _ hr
  · split
    · exact .ok hr
    · exact .error (ht.reject _)
termination_by s.size

theorem Stmt.outcome_keywordRest (hexpr : expr.Faithful)
    (hblock : ∀ params, (block params).Faithful) (word : Keyword) (c : Comparison)
    {s s' : Stream} (h : c.Same s s') :
    c.Outcome (keywordRest expr block word s) (keywordRest expr block word s') := by
  cases word with
  | printWord =>
    refine (hexpr c h).bind fun d e r r' _ hr => ?_
    exact outcome_expect hr .semicolon (.delimiterRequired .printWord) fun d r r' hr => .ok hr
  | letWord =>
    rw [keywordRest, keywordRest, assignRest, assignRest]
    apply outcome_next h
    intro d s' r r' t t' _ _ ht hr
    dsimp only
    rw [← ht.kind, ← ht.text]
    split
    · refine (outcome_parameters d [] hr).bind fun d params r r' _ hr => ?_
      refine (hblock params d hr).bind fun d b r r' _ hr => ?_
      exact outcome_expect hr .semicolon (.delimiterRequired .letWord) fun d r r' hr => .ok hr
    · exact .error (ht.reject _)

theorem Block.outcome_parts (hexpr : expr.Faithful) (hblock : ∀ params, (block params).Faithful)
    (c : Comparison) {s s' : Stream} (h : c.Same s s') :
    c.Outcome (parts expr block s) (parts expr block s') := by
  rw [parts_eq expr block s, parts_eq expr block s']
  apply outcome_next h
  intro d s' r r' t t' hs hn ht hr
  dsimp only
  rw [← ht.kind]
  split
  · refine (Stmt.outcome_keywordRest hexpr hblock _ d hr).bind fun d stmt r₁ r₁' hrest hr₁ => ?_
    have hle := Stream.size_le_of_next hn
    have hlt := Stmt.size_lt_of_keywordRest hrest
    exact (outcome_parts hexpr hblock d hr₁).bind fun d _ r r' _ hr => .ok hr
  · split
    · refine (hexpr d hs).bind fun d e r₁ r₁' hrun hr₁ => ?_
      have hlt := expr.size_lt hrun
      apply outcome_next hr₁
      intro d r₁' r r' t t' hr₁ _ ht _
      dsimp only
      rw [← ht.kind]
      split
      · exact (outcome_parts hexpr hblock d hr₁).bind fun d _ r r' _ hr => .ok hr
      · exact .ok hr₁
    · exact .error (ht.reject _)
termination_by s.size

/-- **The parser for blocks is faithful.** -/
theorem Block.faithful_parserWithin (limit depth : Nat) (params : List String) :
    (parserWithin limit depth params).Faithful := by
  induction depth generalizing params with
  | zero => exact Parser.faithful_tooDeep limit
  | succ depth ih =>
    intro c s s' h
    exact (outcome_parts (Expr.faithful_parserWithin limit depth 0) ih c h).bind
      fun d p r r' _ hr => .ok hr

theorem Stmt.faithful_stmt (hexpr : expr.Faithful) (hblock : ∀ params, (block params).Faithful) :
    (parser expr block).Faithful := by
  intro c s s' h
  dsimp only [parser]
  apply outcome_next h
  intro d s' r r' t t' hs _ ht hr
  dsimp only
  rw [← ht.kind]
  split
  · exact outcome_keywordRest hexpr hblock _ d hr
  · split
    · refine (hexpr d hs).bind fun d e r r' _ hr => ?_
      apply outcome_next hr
      intro d r' r₁ r₁' t t' hr _ ht hr₁
      dsimp only
      rw [← ht.kind]
      split
      · exact .ok hr₁
      · exact .ok hr
    · exact .error (ht.reject _)

/-- **The parser for statements is faithful.** -/
theorem Stmt.faithful_parserWithin (limit : Nat) : (parserWithin limit).Faithful :=
  faithful_stmt (Expr.faithful_parserWithin limit limit 0)
    (Block.faithful_parserWithin limit limit)

/-- **Whole programs** end alike on streams that agree. -/
theorem Program.verdict_statements {stmt : Parser Stmt} (hstmt : stmt.Faithful) (c : Comparison)
    {s s' : Stream} (h : c.Same s s') : c.Verdict (statements stmt s) (statements stmt s') := by
  rw [statements_eq stmt s, statements_eq stmt s']
  apply verdict_next h
  intro d s' r r' t t' hs hn ht hr
  dsimp only
  rw [← ht.kind]
  split
  · exact .ok []
  · refine (hstmt d hs).bind_verdict fun d first r r' hrun hr => ?_
    have hlt := stmt.size_lt hrun
    exact (verdict_statements hstmt d hr).bind_ok _
termination_by s.size

end

end Blockscript
