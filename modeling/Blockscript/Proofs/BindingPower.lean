import Blockscript.Proofs.OnDemandAgreement

/-!
# Reading at every power

An expression is read at a power, and only operators that bind more tightly are taken. The parsers
themselves ask for the powers 0, 2 and 3, but an expression can be read from a text at any power.
Here it is said what comes of that.

From 0 on, whatever binds more tightly than the power is an operator, so no unknown one is ever met;
and as no token binds with a power of 1, or with one above 3, there are only three ways to read.
Below 0, the tokens that are no operators bind too tightly to be left alone. They are met only where
reading at 0 has come to its end, and there the first one is refused.

## Main definitions

* `KnowsOperators` : the run does not end at an unknown operator.
* `Token.IsAt` : the token that is read at an offset of a text.
* `Balanced`, `Enclosed` : the parentheses among some tokens, and operators inside them.
* `Expr.ReadsOperand` : an operand is read between two offsets.

## Main results

* `Expr.knowsOperators_parserWithin`, `Stmt.knowsOperators_parserWithin`,
  `Program.knowsOperators_statements` : no parser that reads at 0 or more meets an unknown operator.
* `Expr.run_parserWithin_congr` : powers that no token can tell apart.
* `Expr.run_parserWithin_of_neg` : a negative power, in terms of the power 0.
* `IsOperand.enclosed` : in an operand, operators stand in parentheses.
* `Expr.parse_at_every_power` : the headline.
-/

namespace Blockscript

/-! ### How tightly tokens bind -/

namespace Token.Kind

/-- What ends a statement binds with a power of -1, an operator with one of 2 or 3, and anything else
with one of 0. -/
theorem leftPower_cases (kind : Token.Kind) :
    (kind.leftPower = -1 ∧ kind.op? = none ∧ (kind = .eof ∨ kind = .semicolon)) ∨
      (kind.leftPower = 0 ∧ kind.op? = none ∧ ¬(kind = .eof ∨ kind = .semicolon)) ∨
      (2 ≤ kind.leftPower ∧ ∃ op, kind.op? = some op ∧ ¬(kind = .eof ∨ kind = .semicolon)) := by
  cases kind with
  | operator op => exact .inr (.inr ⟨by cases op <;> decide, op, rfl, by simp⟩)
  | semicolon => exact .inl ⟨rfl, rfl, .inr rfl⟩
  | eof => exact .inl ⟨rfl, rfl, .inl rfl⟩
  | _ => exact .inr (.inl ⟨rfl, rfl, by simp⟩)

variable {kind : Token.Kind}

theorem op?_eq_none_iff : kind.op? = none ↔ kind.leftPower ≤ 0 := by
  obtain ⟨hpower, hop, -⟩ | ⟨hpower, hop, -⟩ | ⟨hpower, op, hop, -⟩ := leftPower_cases kind
  · simp [hpower, hop]
  · simp [hpower, hop]
  · have hnot : ¬kind.leftPower ≤ 0 := by omega
    simp [hnot, hop]

theorem leftPower_le_one_iff : kind.leftPower ≤ 1 ↔ kind.leftPower ≤ 0 := by
  obtain ⟨hpower, -⟩ | ⟨hpower, -⟩ | ⟨hpower, -⟩ := leftPower_cases kind <;> omega

theorem leftPower_le_iff_of_neg {power : Int} (h : power < 0) :
    kind.leftPower ≤ power ↔ power = -1 ∧ (kind = .eof ∨ kind = .semicolon) := by
  obtain ⟨hpower, -, hkind⟩ | ⟨hpower, -, hkind⟩ | ⟨hpower, -, -, hkind⟩ := leftPower_cases kind
  · simp only [hkind, and_true]
    omega
  · simp only [hkind, and_false, iff_false]
    omega
  · simp only [hkind, and_false, iff_false]
    omega

end Token.Kind

/-! ### Known operators -/

/-- The run does not end at a token that should be an operator and is none. -/
def KnowsOperators {α : Type} (x : Except SyntaxError α) : Prop :=
  ∀ found span, x ≠ .error ⟨.grammar (.unknownOperator found), span⟩

section

variable {α β : Type} {x : Except SyntaxError α} {s : Stream} {t : Token}

theorem knowsOperators_ok (a : α) : KnowsOperators (.ok a) :=
  fun _ _ h => by cases h

theorem knowsOperators_reject (t : Token) {cause : String → GrammarCause}
    (h : ∀ text found, cause text ≠ .unknownOperator found) :
    KnowsOperators (.error (t.reject cause) : Except SyntaxError α) := by
  intro found span heq
  have hcause : SyntaxCause.grammar (cause t.text) = .grammar (.unknownOperator found) :=
    congrArg SyntaxError.cause (Except.error.inj heq)
  exact h t.text found (SyntaxCause.grammar.inj hcause)

theorem KnowsOperators.bind {f : α → Except SyntaxError β} (hx : KnowsOperators x)
    (hf : ∀ a, x = .ok a → KnowsOperators (f a)) : KnowsOperators (x >>= f) := by
  intro found span h
  cases x with
  | error e =>
    cases h
    exact hx found span rfl
  | ok a => exact hf a rfl found span h

theorem KnowsOperators.map (hx : KnowsOperators x) (f : α → β) : KnowsOperators (x.map f) := by
  intro found span h
  cases x with
  | error e =>
    cases h
    exact hx found span rfl
  | ok a => cases h

theorem Stream.knowsOperators_next (s : Stream) : KnowsOperators s.next := by
  rw [next]
  split
  · exact knowsOperators_ok _
  · split
    · exact knowsOperators_ok _
    · exact fun _ _ h => by cases h

theorem Stream.knowsOperators_expect (s : Stream) (kind : Token.Kind)
    {cause : String → GrammarCause} (h : ∀ text found, cause text ≠ .unknownOperator found) :
    KnowsOperators (s.expect kind cause) := by
  refine s.knowsOperators_next.bind fun p _ => ?_
  dsimp only
  split
  · exact knowsOperators_ok _
  · exact knowsOperators_reject p.1 h

/-- The parser meets no unknown operator. -/
def Parser.KnowsOperators (p : Parser α) : Prop :=
  ∀ s, Blockscript.KnowsOperators (p.run s)

theorem Parser.knowsOperators_tooDeep (limit : Nat) :
    (Parser.tooDeep limit : Parser α).KnowsOperators :=
  fun _ _ _ h => by cases h

end

namespace Expr

variable {inner : Int → Parser Expr} {p : Parser Expr}

theorem knowsOperators_atom (hp : p.KnowsOperators) (t : Token) (s : Stream) :
    KnowsOperators (atom p t s) := by
  rw [atom]
  split
  · split
    · exact knowsOperators_ok _
    · exact knowsOperators_reject t (by simp)
  · exact knowsOperators_ok _
  · exact knowsOperators_ok _
  · refine (hp s).bind fun q _ => ?_
    refine (q.2.knowsOperators_expect .closeParen (by simp)).bind fun r _ => ?_
    exact knowsOperators_ok _
  · exact knowsOperators_reject t (by simp)

theorem knowsOperators_arguments (hp : p.KnowsOperators) (s : Stream) :
    KnowsOperators (arguments p s) := by
  rw [arguments_eq]
  refine s.knowsOperators_next.bind fun q hn => ?_
  split
  · next hident =>
    have hlt := Stream.size_lt_of_next hn (by simp [hident])
    exact (knowsOperators_arguments hp q.2).bind fun _ _ => knowsOperators_ok _
  · split
    · next hbegins =>
      have hlt := Stream.size_lt_of_next hn fun heof => by
        rw [heof] at hbegins
        cases hbegins
      refine (knowsOperators_atom hp q.1 q.2).bind fun a hatom => ?_
      have hle := size_le_of_atom hatom
      exact (knowsOperators_arguments hp a.2).bind fun _ _ => knowsOperators_ok _
    · exact knowsOperators_ok _
termination_by s.size

theorem knowsOperators_operand (hp : p.KnowsOperators) (t : Token) (s : Stream) :
    KnowsOperators (operand p t s) := by
  rw [operand]
  split
  · exact (knowsOperators_arguments hp s).bind fun _ _ => knowsOperators_ok _
  · exact knowsOperators_atom hp t s

/-- From the power 0 on, what binds more tightly is an operator. -/
theorem knowsOperators_chain (hinner : ∀ power, 0 ≤ power → (inner power).KnowsOperators)
    {power : Int} (hpower : 0 ≤ power) (lhs : Expr) (s : Stream) :
    KnowsOperators (chain inner power lhs s) := by
  rw [chain_eq]
  refine s.knowsOperators_next.bind fun q hn => ?_
  split
  · exact knowsOperators_ok _
  · next htight =>
    split
    · next hop =>
      have hle := Token.Kind.op?_eq_none_iff.mp hop
      omega
    · refine (hinner _ (by omega) q.2).bind fun u hrun => ?_
      have hle := Stream.size_le_of_next hn
      have hlt := (inner _).size_lt hrun
      exact knowsOperators_chain hinner hpower _ u.2
termination_by s.size

/-- **Expressions** that are read at the power 0 or above meet no unknown operator. -/
theorem knowsOperators_parserWithin (limit depth : Nat) {power : Int} (hpower : 0 ≤ power) :
    (parserWithin limit depth power).KnowsOperators := by
  induction depth generalizing power with
  | zero => exact Parser.knowsOperators_tooDeep limit
  | succ depth ih =>
    intro s
    refine s.knowsOperators_next.bind fun q _ => ?_
    refine (knowsOperators_operand (ih (Int.le_refl 0)) q.1 q.2).bind fun u _ => ?_
    exact knowsOperators_chain (fun _ => ih) hpower u.1 u.2

end Expr

section

variable {expr : Parser Expr} {block : List String → Parser Block}

theorem Stmt.knowsOperators_parameters (params : List String) (s : Stream) :
    KnowsOperators (parameters params s) := by
  rw [parameters_eq]
  refine s.knowsOperators_next.bind fun q hn => ?_
  split
  · next hident =>
    have hlt := Stream.size_lt_of_next hn (by simp [hident])
    split
    · exact knowsOperators_reject q.1 (by simp)
    · exact knowsOperators_parameters _ q.2
  · split
    · exact knowsOperators_ok _
    · exact knowsOperators_reject q.1 (by simp)
termination_by s.size

theorem Stmt.knowsOperators_keywordRest (hexpr : expr.KnowsOperators)
    (hblock : ∀ params, (block params).KnowsOperators) (word : Keyword) (s : Stream) :
    KnowsOperators (keywordRest expr block word s) := by
  cases word with
  | printWord =>
    refine (hexpr s).bind fun q _ => ?_
    refine (q.2.knowsOperators_expect .semicolon (by simp)).bind fun _ _ => ?_
    exact knowsOperators_ok _
  | letWord =>
    refine s.knowsOperators_next.bind fun q _ => ?_
    dsimp only
    split
    · refine (knowsOperators_parameters [] q.2).bind fun u _ => ?_
      refine (hblock u.1 u.2).bind fun v _ => ?_
      refine (v.2.knowsOperators_expect .semicolon (by simp)).bind fun _ _ => ?_
      exact knowsOperators_ok _
    · exact knowsOperators_reject q.1 (by simp)

theorem Block.knowsOperators_parts (hexpr : expr.KnowsOperators)
    (hblock : ∀ params, (block params).KnowsOperators) (s : Stream) :
    KnowsOperators (parts expr block s) := by
  rw [parts_eq]
  refine s.knowsOperators_next.bind fun q hn => ?_
  split
  · refine (Stmt.knowsOperators_keywordRest hexpr hblock _ q.2).bind fun u hrest => ?_
    have hle := Stream.size_le_of_next hn
    have hlt := Stmt.size_lt_of_keywordRest hrest
    exact (knowsOperators_parts hexpr hblock u.2).bind fun _ _ => knowsOperators_ok _
  · split
    · refine (hexpr s).bind fun u hrun => ?_
      have hlt := expr.size_lt hrun
      refine u.2.knowsOperators_next.bind fun f _ => ?_
      split
      · exact (knowsOperators_parts hexpr hblock u.2).bind fun _ _ => knowsOperators_ok _
      · exact knowsOperators_ok _
    · exact knowsOperators_reject q.1 (by simp)
termination_by s.size

theorem Block.knowsOperators_parserWithin (limit depth : Nat) (params : List String) :
    (parserWithin limit depth params).KnowsOperators := by
  induction depth generalizing params with
  | zero => exact Parser.knowsOperators_tooDeep limit
  | succ depth ih =>
    have hexpr := Expr.knowsOperators_parserWithin limit depth (Int.le_refl 0)
    exact fun s => (knowsOperators_parts hexpr ih s).bind fun _ _ => knowsOperators_ok _

/-- **Statements** meet no unknown operator. -/
theorem Stmt.knowsOperators_parserWithin (limit : Nat) : (parserWithin limit).KnowsOperators := by
  have hexpr := Expr.knowsOperators_parserWithin limit limit (Int.le_refl 0)
  have hblock := Block.knowsOperators_parserWithin limit limit
  intro s
  refine s.knowsOperators_next.bind fun q _ => ?_
  dsimp only
  split
  · exact knowsOperators_keywordRest hexpr hblock _ q.2
  · split
    · refine (hexpr s).bind fun u _ => ?_
      refine u.2.knowsOperators_next.bind fun f _ => ?_
      dsimp only
      split
      · exact knowsOperators_ok _
      · exact knowsOperators_ok _
    · exact knowsOperators_reject q.1 (by simp)

/-- **Programs** meet no unknown operator. -/
theorem Program.knowsOperators_statements {stmt : Parser Stmt} (hstmt : stmt.KnowsOperators)
    (s : Stream) : KnowsOperators (statements stmt s) := by
  rw [statements_eq]
  refine s.knowsOperators_next.bind fun q _ => ?_
  split
  · exact knowsOperators_ok _
  · refine (hstmt s).bind fun u hrun => ?_
    have hlt := stmt.size_lt hrun
    exact (knowsOperators_statements hstmt u.2).bind fun _ _ => knowsOperators_ok _
termination_by s.size

end

/-! ### Powers compared -/

theorem bind_congr_of_ok {ε α β : Type} {x : Except ε α} {f g : α → Except ε β}
    (h : ∀ a, x = .ok a → f a = g a) : x >>= f = x >>= g := by
  cases x with
  | error e => rfl
  | ok a => exact h a rfl

namespace Expr

variable {inner : Int → Parser Expr} {power power' : Int}

/-- Powers that no token can tell apart stop at the same token. -/
theorem chain_congr (h : ∀ kind : Token.Kind, kind.leftPower ≤ power ↔ kind.leftPower ≤ power')
    (lhs : Expr) (s : Stream) : chain inner power lhs s = chain inner power' lhs s := by
  rw [chain_eq inner power, chain_eq inner power']
  refine bind_congr_of_ok fun q hn => ?_
  by_cases hpower : q.1.kind.leftPower ≤ power
  · rw [if_pos hpower, if_pos ((h _).mp hpower)]
  rw [if_neg hpower, if_neg (mt (h _).mpr hpower)]
  cases q.1.kind.op? with
  | none => rfl
  | some op =>
    refine bind_congr_of_ok fun u hrun => ?_
    have hle := Stream.size_le_of_next hn
    have hlt := (inner _).size_lt hrun
    exact chain_congr h _ u.2
termination_by s.size

theorem run_parserWithin_congr
    (h : ∀ kind : Token.Kind, kind.leftPower ≤ power ↔ kind.leftPower ≤ power')
    (limit depth : Nat) (s : Stream) :
    (parserWithin limit depth power).run s = (parserWithin limit depth power').run s := by
  cases depth with
  | zero => rfl
  | succ depth =>
    refine bind_congr_of_ok fun q _ => bind_congr_of_ok fun u _ => ?_
    exact chain_congr h u.1 u.2

/-- Looks at the token after an expression, and refuses it unless it binds no more tightly than
`power`. -/
def endingAt (power : Int) (p : Expr × Stream) : Except SyntaxError (Expr × Stream) :=
  p.2.next >>= fun q =>
    if q.1.kind.leftPower ≤ power then .ok p else .error (q.1.reject .unknownOperator)

/-- At a negative power the operators are those of the power 0, and then the next token is looked
at. -/
theorem chain_of_neg (hpower : power < 0) (lhs : Expr) (s : Stream) :
    chain inner power lhs s = chain inner 0 lhs s >>= endingAt power := by
  rw [chain_eq inner power, chain_eq inner 0, bind_assoc]
  refine bind_congr_of_ok fun q hn => ?_
  by_cases hloose : q.1.kind.leftPower ≤ 0
  · -- Reading at 0 ends here, and the token is no operator.
    have hend : (Except.ok (lhs, s) >>= endingAt power : Except SyntaxError (Expr × Stream)) =
        if q.1.kind.leftPower ≤ power then .ok (lhs, s)
        else .error (q.1.reject .unknownOperator) := by
      show s.next >>= _ = _
      rw [hn]
      rfl
    rw [if_pos hloose, hend, Token.Kind.op?_eq_none_iff.mpr hloose]
  · rw [if_neg hloose, if_neg (by omega)]
    cases hop : q.1.kind.op? with
    | none => exact absurd (Token.Kind.op?_eq_none_iff.mp hop) hloose
    | some op =>
      dsimp only
      rw [bind_assoc]
      refine bind_congr_of_ok fun u hrun => ?_
      have hle := Stream.size_le_of_next hn
      have hlt := (inner _).size_lt hrun
      exact chain_of_neg hpower _ u.2
termination_by s.size

/-- **A negative power** reads what the power 0 reads, and then looks at the next token. -/
theorem run_parserWithin_of_neg (hpower : power < 0) (limit depth : Nat) (s : Stream) :
    (parserWithin limit depth power).run s =
      (parserWithin limit depth 0).run s >>= endingAt power := by
  cases depth with
  | zero => rfl
  | succ depth =>
    simp only [parserWithin, level, bind_assoc]
    refine bind_congr_of_ok fun q _ => bind_congr_of_ok fun u _ => ?_
    exact chain_of_neg hpower u.1 u.2

end Expr

/-! ### Operators in parentheses -/

/-- How many of the tokens are of a kind. -/
def countKind (kind : Token.Kind) (ts : List Token) : Nat :=
  ts.countP fun t => t.kind == kind

/-- Parentheses are closed only after they were opened, and all of them are. -/
structure Balanced (ts : List Token) : Prop where
  le : ∀ i, countKind .closeParen (ts.take i) ≤ countKind .openParen (ts.take i)
  eq : countKind .closeParen ts = countKind .openParen ts

/-- Moreover, more parentheses have been opened than closed in front of every operator. -/
structure Enclosed (ts : List Token) : Prop extends Balanced ts where
  lt_of_operator : ∀ (i : Nat) t op, ts[i]? = some t → t.kind = .operator op →
    countKind .closeParen (ts.take i) < countKind .openParen (ts.take i)

section

variable {ts us rest : List Token} {t c : Token} {e : Expr} {args : List Expr}

@[simp] theorem countKind_nil (kind : Token.Kind) : countKind kind [] = 0 := rfl

@[simp] theorem countKind_cons (kind : Token.Kind) (t : Token) (ts : List Token) :
    countKind kind (t :: ts) = countKind kind ts + if t.kind = kind then 1 else 0 := by
  simp [countKind, List.countP_cons]

@[simp] theorem countKind_append (kind : Token.Kind) (ts us : List Token) :
    countKind kind (ts ++ us) = countKind kind ts + countKind kind us := by
  simp [countKind]

theorem Balanced.append (h : Balanced ts) (h' : Balanced us) : Balanced (ts ++ us) := by
  refine ⟨fun i => ?_, by simp [h.eq, h'.eq]⟩
  have hle := h.le i
  have hle' := h'.le (i - ts.length)
  rw [List.take_append, countKind_append, countKind_append]
  omega

theorem Enclosed.append (h : Enclosed ts) (h' : Enclosed us) : Enclosed (ts ++ us) := by
  refine ⟨h.toBalanced.append h'.toBalanced, fun i t op ht hop => ?_⟩
  rw [List.take_append, countKind_append, countKind_append]
  rw [List.getElem?_append] at ht
  split at ht
  · next hi =>
    have hlt := h.lt_of_operator i t op ht hop
    have hzero : i - ts.length = 0 := by omega
    simpa [hzero] using hlt
  · next hi =>
    have hlt := h'.lt_of_operator _ t op ht hop
    rw [List.take_of_length_le (by omega), h.eq]
    omega

theorem balanced_singleton (hopen : t.kind ≠ .openParen) (hclose : t.kind ≠ .closeParen) :
    Balanced [t] := by
  refine ⟨fun i => ?_, by simp [hopen, hclose]⟩
  cases i <;> simp [hopen, hclose]

theorem enclosed_nil : Enclosed [] :=
  ⟨⟨by simp, rfl⟩, by simp⟩

/-- Balanced tokens in parentheses are enclosed, operators among them too. -/
theorem Balanced.paren (h : Balanced ts) (hopen : t.kind = .openParen)
    (hclose : c.kind = .closeParen) : Enclosed (t :: (ts ++ [c])) := by
  refine ⟨⟨fun i => ?_, by simp [hopen, hclose, h.eq]⟩, fun i u op hu hop => ?_⟩
  · cases i with
    | zero => simp
    | succ i =>
      have hle := h.le i
      have hlast : countKind .closeParen ([c].take (i - ts.length)) ≤ 1 :=
        Nat.le_trans List.countP_le_length (List.length_take_le' _ _)
      rw [List.take_succ_cons, List.take_append]
      simp only [countKind_cons, countKind_append, hopen, reduceCtorEq, if_true, if_false]
      omega
  · cases i with
    | zero =>
      obtain rfl : t = u := by simpa using hu
      simp [hopen] at hop
    | succ i =>
      have hle := h.le i
      rw [List.getElem?_cons_succ, List.getElem?_append] at hu
      split at hu
      · next hi =>
        rw [List.take_succ_cons, List.take_append_of_le_length (Nat.le_of_lt hi)]
        simp only [countKind_cons, hopen, reduceCtorEq, if_true, if_false]
        omega
      · obtain rfl : u = c := List.mem_singleton.mp (List.mem_of_getElem? hu)
        simp [hclose] at hop

/-! An operand is made of names, literals and what stands in parentheses. That the latter is balanced
is an induction over all rules for expressions. -/

/-- The tokens in front of `rest` have the property. -/
def Splits (P : List Token → Prop) (ts rest : List Token) : Prop :=
  ∃ phrase, ts = phrase ++ rest ∧ P phrase

theorem Splits.append {P : List Token → Prop} (h : Splits P ts us) (h' : Splits P us rest)
    (hP : ∀ {ts us}, P ts → P us → P (ts ++ us)) : Splits P ts rest := by
  obtain ⟨phrase, rfl, hphrase⟩ := h
  obtain ⟨phrase', rfl, hphrase'⟩ := h'
  exact ⟨phrase ++ phrase', by simp, hP hphrase hphrase'⟩

theorem Splits.paren (h : Splits Balanced us (c :: rest)) (hopen : t.kind = .openParen)
    (hclose : c.kind = .closeParen) : Splits Enclosed (t :: us) rest := by
  obtain ⟨phrase, rfl, hphrase⟩ := h
  exact ⟨t :: (phrase ++ [c]), by simp, hphrase.paren hopen hclose⟩

theorem Splits.balanced (h : Splits Enclosed ts rest) : Splits Balanced ts rest := by
  obtain ⟨phrase, rfl, hphrase⟩ := h
  exact ⟨phrase, rfl, hphrase.toBalanced⟩

theorem splits_operator {op : Op} (h : t.kind = .operator op) :
    Splits Balanced (t :: rest) rest :=
  ⟨[t], rfl, balanced_singleton (by simp [h]) (by simp [h])⟩

/-- A name or a literal. -/
theorem splits_token (hbegins : t.kind.beginsExpr = true) (hopen : t.kind ≠ .openParen) :
    Splits Enclosed (t :: rest) rest := by
  have hclose : t.kind ≠ .closeParen := fun h => by simp [h, Token.Kind.beginsExpr] at hbegins
  refine ⟨[t], rfl, balanced_singleton hopen hclose, fun i u op hu hop => ?_⟩
  obtain rfl : u = t := List.mem_singleton.mp (List.mem_of_getElem? hu)
  simp [hop, Token.Kind.beginsExpr] at hbegins

theorem splits_name (h : t.kind = .identifier) : Splits Enclosed (t :: rest) rest :=
  splits_token (by rw [h]; rfl) (by simp [h])

theorem IsLiteral.splits (h : IsLiteral t e) : Splits Enclosed (t :: rest) rest :=
  splits_token h.beginsExpr (by rcases h with ⟨h, _⟩ | h | h <;> rw [h] <;> decide)

mutual

theorem IsSum.balanced {ts rest : List Token} {e : Expr} :
    IsSum ts e rest → Splits Balanced ts rest
  | .product h => h.balanced
  | .join hlhs hkind _ hrhs =>
    hlhs.balanced.append ((splits_operator hkind).append hrhs.balanced .append) .append

theorem IsProduct.balanced {ts rest : List Token} {e : Expr} :
    IsProduct ts e rest → Splits Balanced ts rest
  | .operand h => h.enclosed.balanced
  | .join hlhs hkind hrhs =>
    hlhs.balanced.append ((splits_operator hkind).append hrhs.enclosed.balanced .append) .append

/-- **In an operand, operators stand in parentheses.** -/
theorem IsOperand.enclosed {ts rest : List Token} {e : Expr} :
    IsOperand ts e rest → Splits Enclosed ts rest
  | .literal h => h.splits
  | .ref hkind hargs _ => (splits_name hkind).append hargs.enclosed .append
  | .paren hopen h hclose => h.balanced.paren hopen hclose

theorem IsAtom.enclosed {ts rest : List Token} {e : Expr} :
    IsAtom ts e rest → Splits Enclosed ts rest
  | .name hkind => splits_name hkind
  | .literal h => h.splits
  | .paren hopen h hclose => h.balanced.paren hopen hclose

theorem IsAtoms.enclosed {ts rest : List Token} {args : List Expr} :
    IsAtoms ts args rest → Splits Enclosed ts rest
  | .nil => ⟨[], rfl, enclosed_nil⟩
  | .cons harg hargs => harg.enclosed.append hargs.enclosed .append

end

end

/-! ### Reading from a text -/

/-- The token that is read at an offset of a text. -/
def Token.IsAt (text : String) (offset : Nat) (t : Token) : Prop :=
  ∃ cs, Text.dropBytes? offset text.toList = some cs ∧ (Token.read offset cs).result = .ok t

theorem Token.IsAt.unique {text : String} {offset : Nat} {t u : Token} (ht : IsAt text offset t)
    (hu : IsAt text offset u) : t = u := by
  obtain ⟨cs, hcs, ht⟩ := ht
  obtain ⟨cs', hcs', hu⟩ := hu
  obtain rfl := Option.some_inj.mp (hcs.symm.trans hcs')
  exact Except.ok.inj (ht.symm.trans hu)

/-- The next token of what is left of a text is the one that is read there. -/
theorem Stream.IsOf.isAt {text : String} {s r : Stream} {t : Token} (hs : s.IsOf text)
    (hn : s.next = .ok (t, r)) : Token.IsAt text s.start t := by
  obtain ⟨pre, rest, htext, hpre, hof⟩ := isOf_iff.mp hs
  refine ⟨rest, Text.dropBytes?_eq_some_iff.mpr ⟨pre, htext, hpre⟩, ?_⟩
  rw [hof, next_ofChars] at hn
  cases hread : Token.read s.start rest with
  | token u rest' =>
    rw [hread] at hn
    cases hn
    rfl
  | eof size =>
    rw [hread] at hn
    cases hn
    rfl
  | fault cause span =>
    rw [hread] at hn
    cases hn

namespace Expr

variable {text : String} {inner : Int → Parser Expr} {power : Int} {limit depth : Nat}
  {s r : Stream} {lhs e : Expr}

/-- Whoever has read an expression has looked at the next token. -/
theorem exists_next_of_chain (h : chain inner power lhs s = .ok (e, r)) :
    ∃ t r', r.next = .ok (t, r') := by
  fun_induction chain inner power lhs s with
  | case1 => cases h
  | case2 lhs s t r' hn hp =>
    cases h
    exact ⟨t, r', hn⟩
  | case3 => cases h
  | case4 => cases h
  | case5 lhs s t r' hn hp op hop rhs r'' hr hle hlt ih => exact ih h

theorem exists_next_of_run (h : (parserWithin limit depth power).run s = .ok (e, r)) :
    ∃ t r', r.next = .ok (t, r') := by
  cases depth with
  | zero => cases h
  | succ depth =>
    obtain ⟨q, -, h⟩ := bind_eq_ok.mp h
    obtain ⟨u, -, h⟩ := bind_eq_ok.mp h
    exact exists_next_of_chain h

/-- Between two offsets of a text stands an operand of the grammar, in which operators are enclosed
in parentheses. -/
def ReadsOperand (text : String) (offset next : Nat) (e : Expr) : Prop :=
  ∃ s r taken, Stream.ofText? text offset = some s ∧ Stream.ofText? text next = some r ∧
    s.tokens = taken ++ r.tokens ∧ IsOperand s.tokens e r.tokens ∧ Enclosed taken

theorem readsOperand_of_run (hs : s.IsOf text) (hpower : 3 ≤ power)
    (h : (parserWithin limit depth power).run s = .ok (e, r)) :
    ReadsOperand text s.start r.start e := by
  have hr : r.IsOf text := (OnDemand.Agree.reaches (OnDemand.agree_expr text _ _ _) hs h).isOf hs
  obtain ⟨hoperand, -, -⟩ := sound_parserWithin limit depth power h
  rw [isExpr_of_le hpower] at hoperand
  obtain ⟨taken, htokens, henclosed⟩ := hoperand.enclosed
  exact ⟨s, r, taken, hs, hr, htokens, hoperand, henclosed⟩

/-- At a negative power, the token after an expression that is read at the power 0 decides. -/
theorem run_of_neg_of_ok (hs : s.IsOf text) (hpower : power < 0)
    (h : (parserWithin limit depth 0).run s = .ok (e, r)) :
    ∃ t, Token.IsAt text r.start t ∧ (parserWithin limit depth power).run s =
      if power = -1 ∧ (t.kind = .eof ∨ t.kind = .semicolon) then .ok (e, r)
      else .error (t.reject .unknownOperator) := by
  have hr : r.IsOf text := (OnDemand.Agree.reaches (OnDemand.agree_expr text _ _ _) hs h).isOf hs
  obtain ⟨t, r', hn⟩ := exists_next_of_run h
  have hend : endingAt power (e, r) = if t.kind.leftPower ≤ power then .ok (e, r)
      else .error (t.reject .unknownOperator) := by
    show r.next >>= _ = _
    rw [hn]
    rfl
  refine ⟨t, hr.isAt hn, ?_⟩
  rw [run_parserWithin_of_neg hpower, h]
  show endingAt power (e, r) = _
  rw [hend]
  simp only [Token.Kind.leftPower_le_iff_of_neg hpower]

theorem parse?_of_isOf (hs : s.IsOf text) (power : Int) (limit : Nat) :
    parse? text s.start power limit =
      some (((parserWithin limit limit power).run s).map fun (e, rest) => (e, rest.start)) := by
  rw [parse?, show Stream.ofText? text s.start = some s from hs]
  rfl

/-- **A negative power**, from the text: an error at the power 0 remains, and an expression is
refused for the token after it, unless the power is -1 and something ends there. -/
theorem parse?_of_neg (hs : s.IsOf text) (hpower : power < 0) (limit : Nat) :
    (∀ err, parse? text s.start 0 limit = some (.error err) →
      parse? text s.start power limit = some (.error err)) ∧
    ∀ e next, parse? text s.start 0 limit = some (.ok (e, next)) →
      ∃ t, Token.IsAt text next t ∧ parse? text s.start power limit = some
        (if power = -1 ∧ (t.kind = .eof ∨ t.kind = .semicolon) then .ok (e, next)
          else .error ⟨.grammar (.unknownOperator t.text), t.span⟩) := by
  rw [parse?_of_isOf hs, parse?_of_isOf hs]
  cases hrun : (parserWithin limit limit 0).run s with
  | error err =>
    constructor
    · intro err' h
      rw [run_parserWithin_of_neg hpower, hrun]
      exact h
    · intro e next h
      cases h
  | ok p =>
    constructor
    · intro err h
      cases h
    · intro e next h
      cases h
      obtain ⟨t, ht, hrun'⟩ := run_of_neg_of_ok hs hpower hrun
      refine ⟨t, ht, ?_⟩
      rw [hrun']
      split
      · rfl
      · rfl

/-- **Reading at every power.** From 0 on, an unknown operator is never met, and so neither by
statements nor by programs. The powers 0 and 1 come to the same, and so do all from 3 on, where
nothing but an operand is read.

At a negative power, what fails at 0 fails alike. What succeeds at 0 succeeds at -1 if the text or
the statement ends there. Otherwise the token that stands there is refused as an unknown operator,
with its text and its bytes. So below -1 nothing succeeds. -/
theorem parse_at_every_power {text : String} {offset : Nat} (hoffset : Text.IsBoundary text offset)
    (limit : Nat) :
    ((∀ power, 0 ≤ power →
        ∃ x, parse? text offset power limit = some x ∧ KnowsOperators x) ∧
      (∃ x, Stmt.parse? text offset limit = some x ∧ KnowsOperators x) ∧
      KnowsOperators (Program.parse text limit)) ∧
    (parse? text offset 1 limit = parse? text offset 0 limit ∧
      ∀ power, 3 ≤ power → parse? text offset power limit = parse? text offset 3 limit ∧
        ∀ e next, parse? text offset power limit = some (.ok (e, next)) →
          ReadsOperand text offset next e) ∧
    (∀ power < 0,
      (∀ err, parse? text offset 0 limit = some (.error err) →
        parse? text offset power limit = some (.error err)) ∧
      ∀ e next, parse? text offset 0 limit = some (.ok (e, next)) →
        ∃ t, Token.IsAt text next t ∧ parse? text offset power limit = some
          (if power = -1 ∧ (t.kind = .eof ∨ t.kind = .semicolon) then .ok (e, next)
            else .error ⟨.grammar (.unknownOperator t.text), t.span⟩)) ∧
    ∀ power ≤ -2, ∃ err, parse? text offset power limit = some (.error err) := by
  obtain ⟨s, hof, hs, rfl⟩ := Stream.exists_isOf hoffset
  have hparse (power : Int) := parse?_of_isOf hs power limit
  refine ⟨⟨fun power hpower => ?_, ?_, ?_⟩, ⟨?_, fun power hpower => ⟨?_, fun e next h => ?_⟩⟩,
    fun power hpower => parse?_of_neg hs hpower limit, fun power hpower => ?_⟩
  · exact ⟨_, hparse power, (knowsOperators_parserWithin limit limit hpower s).map _⟩
  · rw [Stmt.parse?, hof]
    exact ⟨_, rfl, (Stmt.knowsOperators_parserWithin limit s).map _⟩
  · exact Program.knowsOperators_statements (Stmt.knowsOperators_parserWithin limit) _
  · rw [hparse, hparse, run_parserWithin_congr fun _ => Token.Kind.leftPower_le_one_iff]
  · rw [hparse, hparse, run_parserWithin_congr fun kind => iff_of_true
      (Int.le_trans kind.leftPower_le hpower) kind.leftPower_le]
  · rw [hparse, Option.some_inj] at h
    cases hrun : (parserWithin limit limit power).run s with
    | error err =>
      rw [hrun] at h
      cases h
    | ok p =>
      rw [hrun] at h
      cases h
      exact readsOperand_of_run hs hpower hrun
  · obtain ⟨herror, hok⟩ := parse?_of_neg hs (show power < 0 by omega) limit
    cases hrun : (parserWithin limit limit 0).run s with
    | error err => exact ⟨err, herror err (by rw [hparse, hrun]; rfl)⟩
    | ok p =>
      obtain ⟨t, -, h⟩ := hok p.1 p.2.start (by rw [hparse, hrun]; rfl)
      rw [if_neg (by omega)] at h
      exact ⟨_, h⟩

/-- A statement that a semicolon ends, and an expression that runs into a parenthesis. -/
def runOn : String := "'é' + f (1 - 2); f 3 )"

/-- From byte 0 on, the semicolon at byte 16 ends what is read, at the power -1 too. From byte 6 on,
the power 7 reads a call whose argument is in parentheses. From byte 17 on, the parenthesis is
refused at the power -1. -/
theorem parse_runOn_at_powers :
    (Text.IsBoundary runOn 0 ∧ Text.IsBoundary runOn 6 ∧ Text.IsBoundary runOn 17 ∧
      ¬Text.IsBoundary runOn 2) ∧
    (parse? runOn 0 0 4 = some (.ok (.binary .add (.str "é")
        (.ref "f" [.binary .sub (.int 1) (.int 2)]), 16)) ∧
      parse? runOn 0 (-1) 4 = parse? runOn 0 0 4) ∧
    (parse? runOn 6 7 4 = some (.ok (.ref "f" [.binary .sub (.int 1) (.int 2)], 16)) ∧
      ReadsOperand runOn 6 16 (.ref "f" [.binary .sub (.int 1) (.int 2)])) ∧
    parse? runOn 17 0 4 = some (.ok (.ref "f" [.int 3], 21)) ∧
      parse? runOn 17 (-1) 4 = some (.error ⟨.grammar (.unknownOperator ")"), ⟨22, 23⟩⟩) := by
  have hboundary : Text.IsBoundary runOn 0 ∧ Text.IsBoundary runOn 6 ∧ Text.IsBoundary runOn 17 ∧
      ¬Text.IsBoundary runOn 2 := by decide
  have hsum : parse? runOn 0 0 4 = some (.ok (.binary .add (.str "é")
      (.ref "f" [.binary .sub (.int 1) (.int 2)]), 16)) := by
    with_unfolding_all rfl
  have hcall : parse? runOn 6 7 4 = some (.ok (.ref "f" [.binary .sub (.int 1) (.int 2)], 16)) := by
    with_unfolding_all rfl
  have hlast : parse? runOn 17 0 4 = some (.ok (.ref "f" [.int 3], 21)) := by
    with_unfolding_all rfl
  obtain ⟨-, -, hneg, -⟩ := parse_at_every_power hboundary.1 4
  obtain ⟨-, ⟨-, hoperand⟩, -⟩ := parse_at_every_power hboundary.2.1 4
  obtain ⟨-, -, hneg', -⟩ := parse_at_every_power hboundary.2.2.1 4
  refine ⟨hboundary, ⟨hsum, ?_⟩, ⟨hcall, (hoperand 7 (by decide)).2 _ _ hcall⟩, hlast, ?_⟩
  · have hsemicolon : Token.IsAt runOn 16 ⟨.semicolon, ";", ⟨16, 17⟩⟩ := ⟨_, rfl, rfl⟩
    obtain ⟨t, ht, h⟩ := (hneg (-1) (by decide)).2 _ _ hsum
    rw [h, ht.unique hsemicolon, hsum]
    rfl
  · have hparen : Token.IsAt runOn 21 ⟨.closeParen, ")", ⟨22, 23⟩⟩ := ⟨_, rfl, rfl⟩
    obtain ⟨t, ht, h⟩ := (hneg' (-1) (by decide)).2 _ _ hlast
    rw [h, ht.unique hparen]
    rfl

end Expr

end Blockscript
