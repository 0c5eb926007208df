import Blockscript.Proofs.Comparison
import Blockscript.Proofs.OnDemand

/-!
# Reading on demand and reading a stream

The parser that reads its tokens on demand gives the same answers as the parser on streams, and
whenever it reads, it does so where the stream pauses. So it never reads outside the text or inside
a character, and none of its loops fails to move on.

## The shape of the argument

Two runs are compared by `Agrees`, which says of the run on demand where it has read, and of the run
on the stream what it can have failed with. Sequences of steps are compared step by step
(`Agrees.bind`, `Agrees.bindLands`); reading the next token is the one step where the two differ
(`agrees_lex`). The end of the text can be taken from a stream any number of times, and on demand it
could be read again behind the blanks at the end; so it matters that nothing is read after it.

## Main definitions

* `OnDemand.Agrees` : how the two runs correspond.
* `OnDemand.Agree` : the parsers agree on every stream of a text.

## Main results

* `OnDemand.agrees_lex` : reading a token.
* `OnDemand.agree_expr`, `OnDemand.agree_block`, `OnDemand.agree_stmt` : the parsers agree.
* `OnDemand.agrees_parse` : whole programs.
-/

namespace Blockscript

/-- A properly written text literal stands between two quotes. -/
theorem Word.Spelled.exists_quote {w : Word} (h : w.Spelled) (hkind : w.kind = .string) :
    ∃ quote cs, (quote = '\x22' ∨ quote = '\x27') ∧ w.text = quote :: (cs ++ [quote]) := by
  cases h with
  | string hquote hcs => exact ⟨_, _, hquote, rfl⟩
  | symbol h =>
    rw [Lexeme.symbolKind?] at h
    split_ifs at h <;> cases h <;> cases hkind
  | _ => cases hkind

/-! ### Runs that agree -/

namespace OnDemand

variable {α β γ δ : Type} {text : String} {s r : Stream}

/-- A run on demand and a run on the stream `s`. They have related results, or refuse the text with
the same error, which comes of the stream. Either way tokens were read on demand only where the
stream pauses. -/
inductive Agrees (s : Stream) (R : α → β → Prop) :
    OnDemand α → Except SyntaxError β → Prop where
  | ok {offsets : List Nat} {a : α} {b : β} (hoffsets : ∀ o ∈ offsets, s.PausesAt o) (h : R a b) :
    Agrees s R ⟨offsets, .ok a⟩ (.ok b)
  | error {offsets : List Nat} {e : SyntaxError} (hoffsets : ∀ o ∈ offsets, s.PausesAt o)
    (h : s.Reports e) : Agrees s R ⟨offsets, .error (.refused e)⟩ (.error e)

/-- The results of two parsers: the same tree, an offset on demand, and the stream that is left
there. -/
structure Lands (s : Stream) (a : α × Nat) (b : α × Stream) : Prop where
  tree_eq : a.1 = b.1
  offset_eq : a.2 = b.2.start
  reaches : s.Reaches b.2

namespace Agrees

variable {R : α → β → Prop} {R' : γ → δ → Prop} {x : OnDemand α} {y : Except SyntaxError β}

/-- A run that agrees with the stream has its result, or is refused as it is. -/
theorem result_eq {x y} (h : Agrees s (α := α) (· = ·) x y) :
    x.result = y.mapError .refused := by
  cases h with
  | ok _ h => exact congrArg Except.ok h
  | error _ _ => rfl

theorem pausesAt (h : Agrees s R x y) : ∀ offset ∈ x.offsets, s.PausesAt offset := by
  cases h with
  | ok hoffsets _ => exact hoffsets
  | error hoffsets _ => exact hoffsets

theorem exists_of_ok {b : β} (h : Agrees s R x (.ok b)) : ∃ a, R a b := by
  cases h with
  | ok _ h => exact ⟨_, h⟩

theorem reports {e : SyntaxError} (h : Agrees s R x (.error e)) : s.Reports e := by
  cases h with
  | error _ h => exact h

theorem pure {a : α} {b : β} (h : R a b) : Agrees s R (Pure.pure a) (.ok b) :=
  .ok (by simp) h

theorem refuse {e : SyntaxError} (h : s.Reports e) :
    Agrees s R (OnDemand.refuse e) (.error e) :=
  .error (by simp) h

/-- What agrees step by step agrees. -/
theorem bind {f : α → OnDemand γ} {g : β → Except SyntaxError δ} (h : Agrees s R x y)
    (hf : ∀ {a b}, y = .ok b → R a b → Agrees s R' (f a) (g b)) :
    Agrees s R' (x >>= f) (y >>= g) := by
  cases h with
  | @ok offsets a b hoffsets h =>
    have hstep := hf rfl h
    show Agrees s R' ⟨offsets ++ (f a).offsets, (f a).result⟩ (g b)
    generalize f a = z, g b = w at hstep
    cases hstep with
    | ok hoffsets' h' => exact .ok (List.forall_mem_append.mpr ⟨hoffsets, hoffsets'⟩) h'
    | error hoffsets' h' => exact .error (List.forall_mem_append.mpr ⟨hoffsets, hoffsets'⟩) h'
  | error hoffsets h => exact .error hoffsets h

/-- What agrees further on agrees. -/
theorem of_reaches {R' : α → β → Prop} (h : Agrees r R x y) (hr : s.Reaches r)
    (hR : ∀ {a b}, R a b → R' a b) : Agrees s R' x y := by
  have hpauses {o : Nat} (ho : r.PausesAt o) : s.PausesAt o := by
    obtain ⟨r', hr', ho⟩ := ho
    exact ⟨r', hr.trans hr', ho⟩
  cases h with
  | ok hoffsets h => exact .ok (fun o ho => hpauses (hoffsets o ho)) (hR h)
  | error hoffsets h => exact .error (fun o ho => hpauses (hoffsets o ho)) (h.of_reaches hr)

/-- Parsers that agree further on agree. -/
theorem after {x : OnDemand (α × Nat)} {y : Except SyntaxError (α × Stream)}
    (h : Agrees r (Lands r) x y) (hr : s.Reaches r) : Agrees s (Lands s) x y :=
  h.of_reaches hr fun h => ⟨h.tree_eq, h.offset_eq, hr.trans h.reaches⟩

/-- A parser, and what is done with its result. -/
theorem bindLands {base : Stream} {x : OnDemand (α × Nat)} {y : Except SyntaxError (α × Stream)}
    {f : α × Nat → OnDemand γ} {g : α × Stream → Except SyntaxError δ}
    (h : Agrees s (Lands s) x y) (hs : base.Reaches s)
    (hf : ∀ {a r}, y = .ok (a, r) → s.Reaches r → Agrees base R' (f (a, r.start)) (g (a, r))) :
    Agrees base R' (x >>= f) (y >>= g) := by
  refine (h.of_reaches hs id).bind fun {a b} hy hab => ?_
  obtain ⟨tree, offset⟩ := a
  obtain ⟨tree', r⟩ := b
  obtain ⟨htree, hoffset, hr⟩ := hab
  dsimp only at htree hoffset hr
  subst htree hoffset
  exact hf hy hr

end Agrees

/-! ### The steps -/

section

variable {base : Stream} {R : α → β → Prop} {t : Token}

theorem goOn_of_lt {offset next : Nat}
    {run : offset < next → next ≤ Text.byteLength text.toList → OnDemand α} (h : offset < next)
    (h' : next ≤ Text.byteLength text.toList) : goOn text offset next run = run h h' :=
  dif_pos ⟨h, h'⟩

theorem lex_eq (hs : s.IsOf text) : lex text s.start = ⟨[s.start], match s.next with
    | .ok (t, r) => .ok (t, r.start)
    | .error e => .error (.refused e)⟩ := by
  obtain ⟨pre, rest, htext, hpre, hs⟩ := Stream.isOf_iff.mp hs
  have hdrop : Text.dropBytes? s.start text.toList = some rest :=
    Text.dropBytes?_eq_some_iff.mpr ⟨pre, htext, hpre⟩
  have hnext := Stream.next_ofChars s.start rest
  rw [← hs] at hnext
  simp only [lex, hdrop, hnext]
  cases Token.read s.start rest <;> rfl

/-- **Reading a token on demand** agrees with taking it from the stream. -/
theorem agrees_lex {f : Token × Nat → OnDemand α} {g : Token × Stream → Except SyntaxError β}
    (hbase : base.IsOf text) (hs : base.Reaches s)
    (hf : ∀ {t r}, s.next = .ok (t, r) → Agrees base R (f (t, r.start)) (g (t, r))) :
    Agrees base R (lex text s.start >>= f) (s.next >>= g) := by
  have hoffsets : ∀ o ∈ [s.start], base.PausesAt o := by
    intro o ho
    exact ⟨s, hs, (List.mem_singleton.mp ho).symm⟩
  rw [lex_eq (hs.isOf hbase)]
  cases hn : s.next with
  | ok p =>
    refine (Agrees.ok (R := fun a b => a.1 = b.1 ∧ a.2 = b.2.start ∧ b = p) hoffsets
      ⟨rfl, rfl, rfl⟩).bind fun {a b} _ hab => ?_
    obtain ⟨t, next⟩ := a
    obtain ⟨rfl, rfl, rfl⟩ := hab
    exact hf hn
  | error e => exact .error hoffsets (.of_reaches (Stream.reports_of_next hn) hs)

/-- A token that is due, and what is done after it. -/
theorem agrees_expect {f : Nat → OnDemand α} {g : Stream → Except SyntaxError β}
    (hbase : base.IsOf text) (hs : base.Reaches s) {kind : Token.Kind} (hkind : kind ≠ .eof)
    {cause : String → GrammarCause} (hcause : ∀ found, (cause found).carried? = some found)
    (hf : ∀ {r}, base.Reaches r → Agrees base R (f r.start) (g r)) :
    Agrees base R (expect text kind cause s.start >>= f) (s.expect kind cause >>= g) := by
  have hexpect : Agrees base (fun n r => n = r.start ∧ base.Reaches r)
      (expect text kind cause s.start) (s.expect kind cause) := by
    refine agrees_lex hbase hs fun {t r} hn => ?_
    dsimp only
    by_cases ht : t.kind = kind
    · rw [if_pos ht, if_pos ht]
      exact .pure ⟨rfl, hs.next hn (ht ▸ hkind)⟩
    · rw [if_neg ht, if_neg ht]
      exact .refuse ((Stream.reports_reject hn hcause).of_reaches hs)
  refine hexpect.bind fun {n r} _ hr => ?_
  obtain ⟨rfl, hr⟩ := hr
  exact hf hr

/-- What stands inside the quotes of a token can be cut out. -/
theorem unquote_eq (ht : t.word.Spelled) (hkind : t.kind = .string) :
    unquote t.text = Pure.pure (Expr.unquote t.text) := by
  obtain ⟨quote, cs, hquote, htext⟩ := ht.exists_quote hkind
  have htext : t.text.toList = [quote] ++ (cs ++ [quote]) := htext
  have hone : Text.byteLength [quote] = 1 := by rcases hquote with rfl | rfl <;> rfl
  have hstop : Text.byteLength t.text.toList - 1 =
      Text.byteLength [quote] + Text.byteLength cs := by
    rw [htext, Text.byteLength_append, Text.byteLength_append]
    omega
  rw [unquote, hstop, ← hone, htext, Text.slice?_byteLength, Expr.unquote, htext]
  simp

end

/-- The parser on demand and the parser on streams agree on every stream of the text. -/
def Agree (text : String) (q : Nat → OnDemand (α × Nat)) (p : Parser α) : Prop :=
  ∀ {s : Stream}, s.IsOf text → Agrees s (Lands s) (q s.start) (p.run s)

/-- What a parser leaves is left of the stream it was given. -/
theorem Agree.reaches {q : Nat → OnDemand (α × Nat)} {p : Parser α} (h : Agree text q p) {a : α}
    (hs : s.IsOf text) (hrun : p.run s = .ok (a, r)) : s.Reaches r := by
  obtain ⟨_, hlands⟩ := (hrun ▸ h hs).exists_of_ok
  exact hlands.reaches

theorem agree_tooDeep (text : String) (limit : Nat) :
    Agree text (fun offset => refuse ⟨.grammar (.tooDeep limit), ⟨offset, offset⟩⟩)
      (Parser.tooDeep limit : Parser α) :=
  fun {s} _ => .refuse (.tooDeep (.refl s) limit)

/-! ### Expressions -/

section

variable {q : Int → Nat → OnDemand (Expr × Nat)} {p : Int → Parser Expr} {t : Token}

theorem agrees_atom (hinner : Agree text (q 0) (p 0)) (hs : s.IsOf text)
    (hn : s.next = .ok (t, r)) :
    Agrees s (Lands s) (atom text (q 0) t r.start) (Expr.atom (p 0) t r) := by
  have hr (ht : t.kind ≠ .eof) : s.Reaches r := .step hn ht (.refl r)
  rw [atom, Expr.atom]
  cases hkind : t.kind with
  | integer =>
    cases Decimal.int? t.text.toList with
    | some n => exact .pure ⟨rfl, rfl, hr (by simp [hkind])⟩
    | none => exact .refuse (Stream.reports_reject hn fun _ => rfl)
  | float => exact .pure ⟨rfl, rfl, hr (by simp [hkind])⟩
  | string =>
    have ht : t.kind ≠ .eof := by simp [hkind]
    obtain ⟨-, -, -, -, hspelled, -⟩ := hs.next hn ht
    dsimp only
    rw [unquote_eq hspelled hkind]
    exact .pure ⟨rfl, rfl, hr ht⟩
  | openParen =>
    have ht : t.kind ≠ .eof := by simp [hkind]
    refine (hinner ((hr ht).isOf hs)).bindLands (hr ht) fun {e r₁} _ hr₁ => ?_
    refine agrees_expect hs ((hr ht).trans hr₁) (by decide) (fun _ => rfl) fun {r₂} hr₂ => ?_
    exact .pure ⟨rfl, rfl, hr₂⟩
  | _ => exact .refuse (Stream.reports_reject hn fun _ => rfl)

theorem agrees_arguments (hinner : Agree text (q 0) (p 0)) {s : Stream} (hs : s.IsOf text) :
    Agrees s (Lands s) (arguments text (q 0) s.start) (Expr.arguments (p 0) s) := by
  rw [arguments, Expr.arguments_eq]
  refine agrees_lex hs (.refl s) fun {t r} hn => ?_
  dsimp only
  by_cases hident : t.kind = .identifier
  · have ht : t.kind ≠ .eof := by simp [hident]
    have hr : s.Reaches r := .step hn ht (.refl r)
    have hlt := Stream.size_lt_of_next hn ht
    rw [if_pos hident, if_pos hident,
      goOn_of_lt (hr.start_lt hs hlt) (hr.isOf hs).start_le]
    refine (agrees_arguments hinner (hr.isOf hs)).bindLands hr fun {args r₁} _ hr₁ => ?_
    exact .pure ⟨rfl, rfl, hr.trans hr₁⟩
  rw [if_neg hident, if_neg hident]
  by_cases hbegins : t.kind.beginsExpr = true
  · have ht : t.kind ≠ .eof := fun heof => by
      rw [heof] at hbegins
      cases hbegins
    have hlt := Stream.size_lt_of_next hn ht
    rw [if_pos hbegins, if_pos hbegins]
    refine (agrees_atom hinner hs hn).bindLands (.refl s) fun {arg r₁} hatom hr₁ => ?_
    have hle := Expr.size_le_of_atom hatom
    rw [goOn_of_lt (hr₁.start_lt hs (by omega)) (hr₁.isOf hs).start_le]
    refine (agrees_arguments hinner (hr₁.isOf hs)).bindLands hr₁ fun {args r₂} _ hr₂ => ?_
    exact .pure ⟨rfl, rfl, hr₁.trans hr₂⟩
  · rw [if_neg hbegins, if_neg hbegins]
    exact .pure ⟨rfl, rfl, .refl s⟩
termination_by s.size

theorem agrees_operand (hinner : Agree text (q 0) (p 0)) (hs : s.IsOf text)
    (hn : s.next = .ok (t, r)) :
    Agrees s (Lands s) (operand text (q 0) t r.start) (Expr.operand (p 0) t r) := by
  rw [operand, Expr.operand]
  by_cases hident : t.kind = .identifier
  · have hr : s.Reaches r := .step hn (by simp [hident]) (.refl r)
    rw [if_pos hident, if_pos hident]
    refine (agrees_arguments hinner (hr.isOf hs)).bindLands hr fun {args r₁} _ hr₁ => ?_
    exact .pure ⟨rfl, rfl, hr.trans hr₁⟩
  · rw [if_neg hident, if_neg hident]
    exact agrees_atom hinner hs hn

theorem agrees_chain (hinner : ∀ power, Agree text (q power) (p power)) (power : Int) (lhs : Expr)
    {s : Stream} (hs : s.IsOf text) :
    Agrees s (Lands s) (chain text q power lhs s.start) (Expr.chain p power lhs s) := by
  rw [chain, Expr.chain_eq]
  refine agrees_lex hs (.refl s) fun {t r} hn => ?_
  dsimp only
  by_cases hpower : t.kind.leftPower ≤ power
  · rw [if_pos hpower, if_pos hpower]
    exact .pure ⟨rfl, rfl, .refl s⟩
  rw [if_neg hpower, if_neg hpower]
  cases hop : t.kind.op? with
  | none => exact .refuse (Stream.reports_reject hn fun _ => rfl)
  | some op =>
    have ht : t.kind ≠ .eof := by simp [Token.Kind.op?_eq_some hop]
    have hr : s.Reaches r := .step hn ht (.refl r)
    refine (hinner _ (hr.isOf hs)).bindLands hr fun {rhs r₁} hrun hr₁ => ?_
    have hlt := Stream.size_lt_of_next hn ht
    have hlt' := (p t.kind.leftPower).size_lt hrun
    have hr₁ := hr.trans hr₁
    dsimp only
    rw [goOn_of_lt (hr₁.start_lt hs (by omega)) (hr₁.isOf hs).start_le]
    exact (agrees_chain hinner power _ (hr₁.isOf hs)).after hr₁
termination_by s.size

/-- **Expressions** are read on demand as they are read from a stream. -/
theorem agree_expr (text : String) (limit depth : Nat) (power : Int) :
    Agree text (expr text limit depth power) (Expr.parserWithin limit depth power) := by
  induction depth generalizing power with
  | zero => exact agree_tooDeep text limit
  | succ depth ih =>
    intro s hs
    refine agrees_lex hs (.refl s) fun {t r} hn => ?_
    refine (agrees_operand (ih 0) hs hn).bindLands (.refl s) fun {lhs r₁} _ hr₁ => ?_
    exact (agrees_chain ih power lhs (hr₁.isOf hs)).after hr₁

end

/-! ### Statements -/

section

variable {qe : Nat → OnDemand (Expr × Nat)} {pe : Parser Expr}
  {qb : List String → Nat → OnDemand (Block × Nat)} {pb : List String → Parser Block}

theorem agrees_parameters (params : List String) {s : Stream} (hs : s.IsOf text) :
    Agrees s (Lands s) (parameters text params s.start) (Stmt.parameters params s) := by
  rw [parameters, Stmt.parameters_eq]
  refine agrees_lex hs (.refl s) fun {t r} hn => ?_
  dsimp only
  by_cases hident : t.kind = .identifier
  · have ht : t.kind ≠ .eof := by simp [hident]
    have hr : s.Reaches r := .step hn ht (.refl r)
    have hlt := Stream.size_lt_of_next hn ht
    rw [if_pos hident, if_pos hident]
    by_cases hmem : t.text ∈ params
    · rw [if_pos hmem, if_pos hmem]
      exact .refuse (Stream.reports_reject hn fun _ => rfl)
    · rw [if_neg hmem, if_neg hmem, goOn_of_lt (hr.start_lt hs hlt) (hr.isOf hs).start_le]
      exact (agrees_parameters _ (hr.isOf hs)).after hr
  rw [if_neg hident, if_neg hident]
  by_cases hequals : t.kind = .equals
  · rw [if_pos hequals, if_pos hequals]
    exact .pure ⟨rfl, rfl, .step hn (by simp [hequals]) (.refl r)⟩
  · rw [if_neg hequals, if_neg hequals]
    exact .refuse (Stream.reports_reject hn fun _ => rfl)
termination_by s.size

theorem agrees_keywordRest (hexpr : Agree text qe pe)
    (hblock : ∀ params, Agree text (qb params) (pb params)) (word : Keyword) (hs : s.IsOf text) :
    Agrees s (Lands s) (keywordRest text qe qb word s.start) (Stmt.keywordRest pe pb word s) := by
  cases word with
  | printWord =>
    refine (hexpr hs).bindLands (.refl s) fun {e r₁} _ hr₁ => ?_
    refine agrees_expect hs hr₁ (by decide) (fun _ => rfl) fun {r₂} hr₂ => ?_
    exact .pure ⟨rfl, rfl, hr₂⟩
  | letWord =>
    refine agrees_lex hs (.refl s) fun {t r} hn => ?_
    dsimp only
    by_cases hident : t.kind = .identifier
    · have hr : s.Reaches r := .step hn (by simp [hident]) (.refl r)
      rw [if_pos hident, if_pos hident]
      refine (agrees_parameters [] (hr.isOf hs)).bindLands hr fun {params r₁} _ hr₁ => ?_
      have hr₁ := hr.trans hr₁
      refine (hblock params (hr₁.isOf hs)).bindLands hr₁ fun {b r₂} _ hr₂ => ?_
      refine agrees_expect hs (hr₁.trans hr₂) (by decide) (fun _ => rfl) fun {r₃} hr₃ => ?_
      exact .pure ⟨rfl, rfl, hr₃⟩
    · rw [if_neg hident, if_neg hident]
      exact .refuse (Stream.reports_reject hn fun _ => rfl)

theorem agrees_parts (hexpr : Agree text qe pe)
    (hblock : ∀ params, Agree text (qb params) (pb params)) {s : Stream} (hs : s.IsOf text) :
    Agrees s (Lands s) (parts text qe qb s.start) (Block.parts pe pb s) := by
  rw [parts, Block.parts_eq]
  refine agrees_lex hs (.refl s) fun {t r} hn => ?_
  dsimp only
  refine Token.Kind.rel_of_keyword (fun word hword => ?_) ?_
  · have ht : t.kind ≠ .eof := by simp [hword]
    have hr : s.Reaches r := .step hn ht (.refl r)
    have hlt := Stream.size_lt_of_next hn ht
    refine (agrees_keywordRest hexpr hblock word (hr.isOf hs)).bindLands hr
      fun {stmt r₁} hrest hr₁ => ?_
    have hlt' := Stmt.size_lt_of_keywordRest hrest
    have hr₁ := hr.trans hr₁
    dsimp only
    rw [goOn_of_lt (hr₁.start_lt hs (by omega)) (hr₁.isOf hs).start_le]
    refine (agrees_parts hexpr hblock (hr₁.isOf hs)).bindLands hr₁ fun {p r₂} _ hr₂ => ?_
    exact .pure ⟨rfl, rfl, hr₁.trans hr₂⟩
  · by_cases hbegins : t.kind.beginsExpr = true
    · rw [if_pos hbegins, if_pos hbegins]
      refine (hexpr hs).bindLands (.refl s) fun {e r₁} hrun hr₁ => ?_
      have hlt := pe.size_lt hrun
      refine agrees_lex hs hr₁ fun {follow r₂} _ => ?_
      dsimp only
      by_cases hstmt : follow.kind.beginsStmt = true
      · rw [if_pos hstmt, if_pos hstmt,
          goOn_of_lt (hr₁.start_lt hs hlt) (hr₁.isOf hs).start_le]
        refine (agrees_parts hexpr hblock (hr₁.isOf hs)).bindLands hr₁ fun {p r₂} _ hr₂ => ?_
        exact .pure ⟨rfl, rfl, hr₁.trans hr₂⟩
      · rw [if_neg hstmt, if_neg hstmt]
        exact .pure ⟨rfl, rfl, hr₁⟩
    · rw [if_neg hbegins, if_neg hbegins]
      exact .refuse (Stream.reports_reject hn fun _ => rfl)
termination_by s.size

/-- **Blocks** are read on demand as they are read from a stream. -/
theorem agree_block (text : String) (limit depth : Nat) (params : List String) :
    Agree text (block text limit depth params) (Block.parserWithin limit depth params) := by
  induction depth generalizing params with
  | zero => exact agree_tooDeep text limit
  | succ depth ih =>
    intro s hs
    refine (agrees_parts (agree_expr text limit depth 0) ih hs).bindLands (.refl s)
      fun {p r₁} _ hr₁ => ?_
    exact .pure ⟨rfl, rfl, hr₁⟩

/-- **Statements** are read on demand as they are read from a stream. -/
theorem agree_stmt (text : String) (limit : Nat) :
    Agree text (stmt text limit) (Stmt.parserWithin limit) := by
  have hexpr := @agree_expr text limit limit 0
  intro s hs
  refine agrees_lex hs (.refl s) fun {t r} hn => ?_
  dsimp only
  refine Token.Kind.rel_of_keyword (fun word hword => ?_) ?_
  · have hr : s.Reaches r := .step hn (by simp [hword]) (.refl r)
    exact (agrees_keywordRest hexpr (agree_block text limit limit) word (hr.isOf hs)).after hr
  · by_cases hbegins : t.kind.beginsExpr = true
    · rw [if_pos hbegins, if_pos hbegins]
      refine (hexpr hs).bindLands (.refl s) fun {e r₁} _ hr₁ => ?_
      refine agrees_lex hs hr₁ fun {follow r₂} hn₁ => ?_
      dsimp only
      by_cases hsemi : follow.kind = .semicolon
      · rw [if_pos hsemi, if_pos hsemi]
        exact .pure ⟨rfl, rfl, hr₁.next hn₁ (by simp [hsemi])⟩
      · rw [if_neg hsemi, if_neg hsemi]
        exact .pure ⟨rfl, rfl, hr₁⟩
    · rw [if_neg hbegins, if_neg hbegins]
      exact .refuse (Stream.reports_reject hn fun _ => rfl)

theorem agrees_statements (limit : Nat) {s : Stream} (hs : s.IsOf text) :
    Agrees s (· = ·) (statements text limit s.start)
      (Program.statements (Stmt.parserWithin limit) s) := by
  rw [statements, Program.statements_eq]
  refine agrees_lex hs (.refl s) fun {t r} hn => ?_
  dsimp only
  by_cases heof : t.kind = .eof
  · rw [if_pos heof, if_pos heof]
    exact .pure rfl
  · rw [if_neg heof, if_neg heof]
    refine (agree_stmt text limit hs).bindLands (.refl s) fun {first r₁} hrun hr₁ => ?_
    have hlt := (Stmt.parserWithin limit).size_lt hrun
    dsimp only
    rw [goOn_of_lt (hr₁.start_lt hs hlt) (hr₁.isOf hs).start_le]
    refine ((agrees_statements limit (hr₁.isOf hs)).of_reaches hr₁ id).bind fun _ hrest => ?_
    exact .pure (congrArg _ hrest)
termination_by s.size

/-- **Programs** are read on demand as they are read from a stream. -/
theorem agrees_parse (text : String) (limit : Nat) :
    Agrees (Stream.ofText text) (· = ·) (parse text limit) (Program.parse text limit) :=
  agrees_statements limit (Stream.isOf_ofText text)

end

end OnDemand

end Blockscript
