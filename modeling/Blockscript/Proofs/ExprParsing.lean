import Blockscript.Proofs.Grammar

/-!
# The expression parser follows the grammar

The parser for expressions climbs by binding power: it is given a power, reads an operand, and goes
on as long as the next operator binds more tightly. The grammar has a rule for each power instead.
Here the two are compared: what the parser reads at a power is what the rule of that power derives,
provided that nothing follows which the rule could still take.

One level of nesting is one step of the parser's recursion. A phrase of `n` tokens is nested to at
most `n` levels, so the parser reads it whenever it is permitted that many.

## Main definitions

* `Stream.Holds` : a stream holds exactly these tokens, and then the text ends.
* `IsExpr` : the rule for expressions whose operators bind more tightly than a power.
* `Expr.Sound`, `Expr.Complete` : a parser reads nothing but, and all of, what a rule derives.

## Main results

* `Expr.sound_parserWithin` : the parser is sound at every depth.
* `Expr.complete_parserWithin` : with `n` levels it is complete for phrases of `n` tokens.
-/

namespace Blockscript

theorem bind_eq_ok {ε α β : Type} {x : Except ε α} {f : α → Except ε β} {b : β} :
    x >>= f = .ok b ↔ ∃ a, x = .ok a ∧ f a = .ok b := by
  cases x with
  | error e => simp [bind, Except.bind]
  | ok a => simp [bind, Except.bind]

/-! ### Streams as lists of tokens -/

namespace Stream

variable {s r : Stream} {t : Token} {ts : List Token} {kind : Token.Kind}
  {cause : String → GrammarCause}

theorem kind_of_next (h : s.next = .ok (t, r)) : t.kind = nextKind s.tokens := by
  rw [next] at h
  split at h
  · next hs =>
    cases h
    rw [hs, nextKind_cons]
  · next hs =>
    split at h
    · cases h
      rw [hs]
      rfl
    · cases h

theorem tokens_of_next (h : s.next = .ok (t, r)) (ht : t.kind ≠ .eof) :
    s.tokens = t :: r.tokens ∧ r.ending = s.ending := by
  rw [next] at h
  split at h
  · next hs =>
    cases h
    exact ⟨hs, rfl⟩
  · split at h
    · cases h
      exact absurd rfl ht
    · cases h

theorem expect_eq_ok (h : s.expect kind cause = .ok r) :
    ∃ t, s.next = .ok (t, r) ∧ t.kind = kind := by
  obtain ⟨⟨t, r'⟩, hn, h⟩ := bind_eq_ok.mp h
  dsimp only at h
  split at h
  · next hkind =>
    cases h
    exact ⟨t, hn, hkind⟩
  · cases h

theorem tokens_of_expect (h : s.expect kind cause = .ok r) (hk : kind ≠ .eof) :
    ∃ t, t.kind = kind ∧ s.tokens = t :: r.tokens ∧ r.ending = s.ending := by
  obtain ⟨t, hn, rfl⟩ := expect_eq_ok h
  exact ⟨t, rfl, tokens_of_next hn hk⟩

/-- The stream holds exactly these tokens, and then the text ends. -/
structure Holds (s : Stream) (ts : List Token) : Prop where
  tokens_eq : s.tokens = ts
  ends : ∃ size, s.ending = .eof size

theorem Holds.next_cons (h : s.Holds (t :: ts)) : ∃ r, s.next = .ok (t, r) ∧ r.Holds ts := by
  refine ⟨⟨t.span.stop, ts, s.ending⟩, ?_, rfl, h.ends⟩
  simp only [next, h.tokens_eq]

/-- A stream without a fault can always be asked for the next token. -/
theorem Holds.exists_next (h : s.Holds ts) : ∃ t r, s.next = .ok (t, r) ∧ t.kind = nextKind ts := by
  cases ts with
  | nil =>
    obtain ⟨size, hsize⟩ := h.ends
    refine ⟨Token.eof size, ⟨size, [], s.ending⟩, ?_, rfl⟩
    simp only [next, h.tokens_eq, hsize]
  | cons t ts =>
    obtain ⟨r, hn, -⟩ := h.next_cons
    exact ⟨t, r, hn, rfl⟩

theorem Holds.expect_cons (h : s.Holds (t :: ts)) (hkind : t.kind = kind)
    (cause : String → GrammarCause) : ∃ r, s.expect kind cause = .ok r ∧ r.Holds ts := by
  obtain ⟨r, hn, hr⟩ := h.next_cons
  refine ⟨r, ?_, hr⟩
  simp [expect, hn, hkind, bind, Except.bind]

end Stream

/-! ### What the powers mean -/

/-- The rule for expressions whose operators bind more tightly than `power`. -/
def IsExpr (power : Int) : List Token → Expr → List Token → Prop :=
  if power < 2 then IsSum else if power < 3 then IsProduct else IsOperand

theorem isExpr_of_lt_two {power : Int} (h : power < 2) : IsExpr power = IsSum := if_pos h

theorem isExpr_of_lt_three {power : Int} (h : ¬power < 2) (h' : power < 3) :
    IsExpr power = IsProduct := by
  rw [IsExpr, if_neg h, if_pos h']

theorem isExpr_of_le {power : Int} (h : 3 ≤ power) : IsExpr power = IsOperand := by
  rw [IsExpr, if_neg (by omega), if_neg (by omega)]

theorem IsExpr.takes {power : Int} {ts rest : List Token} {e : Expr} (h : IsExpr power ts e rest) :
    Takes ts rest := by
  rw [IsExpr] at h
  split at h
  · exact h.takes
  · split at h
    · exact h.takes
    · exact h.takes

theorem Token.Kind.leftPower_le_two {kind : Token.Kind} (h : kind ≠ .operator .mul) :
    kind.leftPower ≤ 2 := by
  unfold leftPower
  split
  · exact absurd rfl h
  all_goals decide

theorem Token.Kind.leftPower_le (kind : Token.Kind) : kind.leftPower ≤ 3 := by
  by_cases h : kind = .operator .mul
  · rw [h]
    decide
  · exact Int.le_trans (leftPower_le_two h) (by decide)

theorem Token.Kind.ne_mul_of_leftPower_le {kind : Token.Kind} (h : kind.leftPower ≤ 2) :
    kind ≠ .operator .mul := by
  rintro rfl
  exact absurd h (by decide)

theorem Token.Kind.op?_eq_some {kind : Token.Kind} {op : Op} (h : kind.op? = some op) :
    kind = .operator op := by
  cases kind <;> cases h
  rfl

namespace Expr

variable {inner : Int → Parser Expr} {power : Int} {n : Nat} {t c : Token}
  {ts us rest : List Token} {s r : Stream} {e lhs rhs : Expr} {args : List Expr}

/-! ### Soundness

Whatever the parser returns, the grammar derives from the tokens that are gone. -/

/-- What the parser reads is derived by the rule of `power`, and what follows cannot be taken. -/
def Sound (p : Parser Expr) (power : Int) : Prop :=
  ∀ {s r : Stream} {e : Expr}, p.run s = .ok (e, r) →
    IsExpr power s.tokens e r.tokens ∧ (nextKind r.tokens).leftPower ≤ power ∧ r.ending = s.ending

theorem isLiteral_or_paren_of_atom (hinner : ∀ power, Sound (inner power) power)
    (h : atom (inner 0) t s = .ok (e, r)) :
    (IsLiteral t e ∧ r = s) ∨
      ∃ c, t.kind = .openParen ∧ IsSum s.tokens e (c :: r.tokens) ∧ c.kind = .closeParen ∧
        r.ending = s.ending := by
  rw [atom] at h
  split at h
  · next hkind =>
    rw [Decimal.int?] at h
    split at h
    · next n hn =>
      cases h
      obtain ⟨hlt, heq⟩ := Option.ite_none_right_eq_some.mp hn
      obtain rfl := Option.some.inj heq
      exact .inl ⟨.integer hkind hlt, rfl⟩
    · cases h
  · next hkind =>
    cases h
    exact .inl ⟨.float hkind, rfl⟩
  · next hkind =>
    cases h
    exact .inl ⟨.string hkind, rfl⟩
  · next hkind =>
    obtain ⟨⟨e', s'⟩, hrun, h⟩ := bind_eq_ok.mp h
    obtain ⟨r', hexpect, h⟩ := bind_eq_ok.mp h
    cases h
    obtain ⟨hsum, -, hend⟩ := hinner 0 hrun
    obtain ⟨c, hc, htokens, hend'⟩ := Stream.tokens_of_expect hexpect (by decide)
    exact .inr ⟨c, hkind, htokens ▸ hsum, hc, hend'.trans hend⟩
  · cases h

theorem isAtoms_of_arguments (hinner : ∀ power, Sound (inner power) power)
    (h : arguments (inner 0) s = .ok (args, r)) :
    IsAtoms s.tokens args r.tokens ∧ (nextKind r.tokens).beginsExpr = false ∧
      r.ending = s.ending := by
  fun_induction arguments (inner 0) s generalizing args r with
  | case1 => cases h
  | case2 => cases h
  | case3 s t r' hn hk hlt args' s' hargs ih =>
    cases h
    obtain ⟨hatoms, hnext, hend⟩ := ih hargs
    obtain ⟨htokens, hend'⟩ := Stream.tokens_of_next hn (by simp [hk])
    rw [htokens]
    exact ⟨.cons (.name hk) hatoms, hnext, hend.trans hend'⟩
  | case4 => cases h
  | case5 => cases h
  | case6 s t r' hn hk hb arg r'' ha hlt hle args' s' hargs ih =>
    cases h
    obtain ⟨hatoms, hnext, hend⟩ := ih hargs
    obtain ⟨htokens, hend'⟩ := Stream.tokens_of_next hn (by rintro h; simp [h] at hb; cases hb)
    rw [htokens]
    rcases isLiteral_or_paren_of_atom hinner ha with ⟨hlit, rfl⟩ | ⟨c, ho, hsum, hc, hend''⟩
    · exact ⟨.cons (.literal hlit) hatoms, hnext, hend.trans hend'⟩
    · exact ⟨.cons (.paren ho hsum hc) hatoms, hnext, (hend.trans hend'').trans hend'⟩
  | case7 s t r' hn hk hb =>
    cases h
    rw [← Stream.kind_of_next hn]
    exact ⟨.nil, by simpa using hb, rfl⟩

theorem isOperand_of_operand (hinner : ∀ power, Sound (inner power) power)
    (h : operand (inner 0) t s = .ok (e, r)) :
    IsOperand (t :: s.tokens) e r.tokens ∧ r.ending = s.ending := by
  rw [operand] at h
  split at h
  · next hkind =>
    obtain ⟨⟨args, s'⟩, hargs, h⟩ := bind_eq_ok.mp h
    cases h
    obtain ⟨hatoms, hnext, hend⟩ := isAtoms_of_arguments hinner hargs
    exact ⟨.ref hkind hatoms hnext, hend⟩
  · rcases isLiteral_or_paren_of_atom hinner h with ⟨hlit, rfl⟩ | ⟨c, ho, hsum, hc, hend⟩
    · exact ⟨.literal hlit, rfl⟩
    · exact ⟨.paren ho hsum hc, hend⟩

/-- What `lhs` may be when the operators after it are read at `power`. A sum cannot be the left
operand of `*`, so once an addition has been read the next operator is not `*`. -/
def IsLeftOperand (power : Int) (ts : List Token) (lhs : Expr) (us : List Token) : Prop :=
  IsOperand ts lhs us ∨ (power < 3 ∧ IsProduct ts lhs us) ∨
    (power < 2 ∧ IsSum ts lhs us ∧ nextKind us ≠ .operator .mul)

theorem IsLeftOperand.isProduct (h : IsLeftOperand power ts lhs us)
    (hmul : nextKind us = .operator .mul) : IsProduct ts lhs us := by
  rcases h with h | ⟨-, h⟩ | ⟨-, -, h⟩
  · exact .operand h
  · exact h
  · exact absurd hmul h

theorem IsLeftOperand.isSum (h : IsLeftOperand power ts lhs us) : IsSum ts lhs us := by
  rcases h with h | ⟨-, h⟩ | ⟨-, h, -⟩
  · exact .product (.operand h)
  · exact .product h
  · exact h

theorem IsLeftOperand.isExpr (h : IsLeftOperand power ts lhs us) : IsExpr power ts lhs us := by
  -- The disjuncts are ordered by power: below 2 all three are sums, from 3 on only the first is left.
  by_cases h2 : power < 2
  · rw [isExpr_of_lt_two h2]
    exact h.isSum
  by_cases h3 : power < 3
  · rw [isExpr_of_lt_three h2 h3]
    rcases h with h | ⟨-, h⟩ | ⟨h, -, -⟩
    · exact .operand h
    · exact h
    · exact absurd h h2
  · rw [isExpr_of_le (by omega)]
    rcases h with h | ⟨h, -⟩ | ⟨h, -, -⟩
    · exact h
    · exact absurd h h3
    · exact absurd h h2

/-- An operator that binds more tightly than `power`, and its right operand, make a larger left
operand. -/
theorem IsLeftOperand.join (h : IsLeftOperand power ts lhs (t :: us)) {op : Op}
    (hkind : t.kind = .operator op) (hpower : ¬t.kind.leftPower ≤ power)
    (hrhs : IsExpr t.kind.leftPower us rhs rest)
    (hnext : (nextKind rest).leftPower ≤ t.kind.leftPower) :
    IsLeftOperand power ts (.binary op lhs rhs) rest := by
  rw [hkind] at hpower hrhs hnext
  -- The right operand of an addition is a product, so no `*` can follow it.
  have hadd (hop : op = .add ∨ op = .sub) (hlp : (Token.Kind.operator op).leftPower = 2) :
      IsLeftOperand power ts (.binary op lhs rhs) rest := by
    rw [hlp] at hpower hrhs hnext
    exact .inr (.inr ⟨by omega, .join h.isSum hkind hop hrhs,
      Token.Kind.ne_mul_of_leftPower_le hnext⟩)
  cases op with
  | add => exact hadd (.inl rfl) rfl
  | sub => exact hadd (.inr rfl) rfl
  | mul =>
    have hlp : (Token.Kind.operator .mul).leftPower = 3 := rfl
    rw [hlp] at hpower hrhs
    exact .inr (.inl ⟨by omega, .join (h.isProduct hkind) hkind hrhs⟩)

theorem isExpr_of_chain (hinner : ∀ power, Sound (inner power) power)
    (h : chain inner power lhs s = .ok (e, r)) (hlhs : IsLeftOperand power ts lhs s.tokens) :
    IsExpr power ts e r.tokens ∧ (nextKind r.tokens).leftPower ≤ power ∧ r.ending = s.ending := by
  fun_induction chain inner power lhs s with
  | case1 => cases h
  | case2 lhs s t r' hn hp =>
    cases h
    rw [← Stream.kind_of_next hn]
    exact ⟨hlhs.isExpr, hp, rfl⟩
  | case3 => cases h
  | case4 => cases h
  | case5 lhs s t r' hn hp op hop rhs r'' hr hle hlt ih =>
    have hkind := Token.Kind.op?_eq_some hop
    obtain ⟨htokens, hend⟩ := Stream.tokens_of_next hn (by simp [hkind])
    obtain ⟨hrhs, hnext, hend'⟩ := hinner _ hr
    rw [htokens] at hlhs
    obtain ⟨he, hlp, hend''⟩ := ih h (hlhs.join hkind hp hrhs hnext)
    exact ⟨he, hlp, (hend''.trans hend').trans hend⟩

theorem sound_level (hinner : ∀ power, Sound (inner power) power) (power : Int) :
    Sound (level inner power) power := by
  intro s r e h
  obtain ⟨⟨t, s₁⟩, hn, h⟩ := bind_eq_ok.mp h
  obtain ⟨⟨lhs, s₂⟩, ho, h⟩ := bind_eq_ok.mp h
  obtain ⟨hoperand, hend⟩ := isOperand_of_operand hinner ho
  have heof : t.kind ≠ .eof := fun heof => by simp [operand, atom, heof] at ho
  obtain ⟨htokens, hend'⟩ := Stream.tokens_of_next hn heof
  rw [← htokens] at hoperand
  obtain ⟨he, hlp, hend''⟩ := isExpr_of_chain hinner h (.inl hoperand)
  exact ⟨he, hlp, (hend''.trans hend).trans hend'⟩

/-- **The expression parser is sound.** At every depth and every power, what it reads is derived by
the rule of that power. -/
theorem sound_parserWithin (limit depth : Nat) (power : Int) :
    Sound (parserWithin limit depth power) power := by
  induction depth generalizing power with
  | zero => intro s r e h; cases h
  | succ depth ih => exact sound_level ih power

/-! ### Completeness

A phrase that the grammar derives is read in full, whatever stands after it, provided that it could
not be continued. -/

/-- The parser reads every phrase of at most `n` tokens that the rule of `power` derives and that
cannot be continued. -/
def Complete (p : Parser Expr) (power : Int) (n : Nat) : Prop :=
  ∀ {ts rest : List Token} {e : Expr} {s : Stream}, IsExpr power ts e rest →
    (nextKind rest).leftPower ≤ power → ts.length ≤ rest.length + n → s.Holds ts →
    ∃ r, p.run s = .ok (e, r) ∧ r.Holds rest

theorem Complete.run_of_isSum {p : Parser Expr} (hp : Complete p 0 n) (h : IsSum ts e rest)
    (hnext : (nextKind rest).leftPower ≤ 0) (hlen : ts.length ≤ rest.length + n)
    (hs : s.Holds ts) : ∃ r, p.run s = .ok (e, r) ∧ r.Holds rest :=
  hp (show IsExpr 0 ts e rest from h) hnext hlen hs

theorem atom_of_isLiteral (inner : Parser Expr) (h : IsLiteral t e) :
    atom inner t s = .ok (e, s) := by
  cases h with
  | integer hkind hlt => simp only [atom, hkind, Decimal.int?, if_pos hlt]
  | float hkind => simp [atom, hkind]
  | string hkind => simp [atom, hkind]

theorem atom_of_isSum (hinner : ∀ power, Complete (inner power) power n)
    (hopen : t.kind = .openParen) (h : IsSum us e (c :: rest)) (hclose : c.kind = .closeParen)
    (hlen : us.length ≤ rest.length + 1 + n) (hs : s.Holds us) :
    ∃ r, atom (inner 0) t s = .ok (e, r) ∧ r.Holds rest := by
  have hnext := leftPower_nextKind_of_closes (.inl hclose) rest
  obtain ⟨r, hrun, hr⟩ := Complete.run_of_isSum (hinner 0) h hnext hlen hs
  obtain ⟨r', hexpect, hr'⟩ := hr.expect_cons hclose .unclosedParen
  refine ⟨r', ?_, hr'⟩
  simp [atom, hopen, hrun, hexpect, bind, Except.bind]

theorem arguments_nil {inner : Parser Expr} (hn : s.next = .ok (t, r))
    (hkind : t.kind.beginsExpr = false) : arguments inner s = .ok ([], s) := by
  have hident : t.kind ≠ .identifier := fun h => by rw [h] at hkind; cases hkind
  rw [arguments]
  split <;> simp_all

theorem arguments_cons_name {inner : Parser Expr} {s' : Stream} (hn : s.next = .ok (t, r))
    (hkind : t.kind = .identifier) (hargs : arguments inner r = .ok (args, s')) :
    arguments inner s = .ok (.ref t.text [] :: args, s') := by
  rw [arguments]
  split <;> simp_all

theorem arguments_cons_atom {inner : Parser Expr} {r' s' : Stream} (hn : s.next = .ok (t, r))
    (hident : t.kind ≠ .identifier) (hkind : t.kind.beginsExpr = true)
    (hatom : atom inner t r = .ok (e, r')) (hargs : arguments inner r' = .ok (args, s')) :
    arguments inner s = .ok (e :: args, s') := by
  rw [arguments]
  split
  · simp_all
  · next t' r'' hn' =>
    obtain ⟨rfl, rfl⟩ : t' = t ∧ r'' = r := by simpa [hn] using hn'.symm
    rw [dif_neg hident, dif_pos hkind]
    split <;> simp_all

/-- The arguments of a name end where no expression can begin. -/
theorem arguments_of_isAtoms (hinner : ∀ power, Complete (inner power) power n)
    (h : IsAtoms ts args rest) (hnext : (nextKind rest).beginsExpr = false)
    (hlen : ts.length ≤ rest.length + n) (hs : s.Holds ts) :
    ∃ r, arguments (inner 0) s = .ok (args, r) ∧ r.Holds rest := by
  induction args generalizing ts s with
  | nil =>
    cases h
    obtain ⟨t, r, hn, hkind⟩ := hs.exists_next
    exact ⟨s, arguments_nil hn (hkind ▸ hnext), hs⟩
  | cons arg args ih =>
    obtain _ | ⟨harg, hargs⟩ := h
    have hle := hargs.length_le
    cases harg with
    | @name us t hkind =>
      obtain ⟨r, hn, hr⟩ := hs.next_cons
      obtain ⟨r', heq, hr'⟩ := ih hargs (by rw [List.length_cons] at hlen; omega) hr
      exact ⟨r', arguments_cons_name hn hkind heq, hr'⟩
    | @literal us t _ hlit =>
      obtain ⟨r, hn, hr⟩ := hs.next_cons
      obtain ⟨r', heq, hr'⟩ := ih hargs (by rw [List.length_cons] at hlen; omega) hr
      exact ⟨r', arguments_cons_atom hn hlit.ne_identifier hlit.beginsExpr
        (atom_of_isLiteral _ hlit) heq, hr'⟩
    | @paren us' us t c _ hopen hsum hclose =>
      obtain ⟨r, hn, hr⟩ := hs.next_cons
      have hlen' := hsum.takes.length_lt
      obtain ⟨r', hatom, hr'⟩ := atom_of_isSum hinner hopen hsum hclose
        (by rw [List.length_cons] at hlen; omega) hr
      obtain ⟨r'', heq, hr''⟩ := ih hargs (by rw [List.length_cons] at hlen hlen'; omega) hr'
      exact ⟨r'', arguments_cons_atom hn (by simp [hopen]) (by rw [hopen]; rfl) hatom heq, hr''⟩

theorem operand_of_isOperand (hinner : ∀ power, Complete (inner power) power n)
    (h : IsOperand ts e rest) (hlen : ts.length ≤ rest.length + (n + 1)) (hs : s.Holds ts) :
    ∃ t r r', s.next = .ok (t, r) ∧ operand (inner 0) t r = .ok (e, r') ∧ r'.Holds rest := by
  cases h with
  | @literal _ t _ hlit =>
    obtain ⟨r, hn, hr⟩ := hs.next_cons
    refine ⟨t, r, r, hn, ?_, hr⟩
    rw [operand, if_neg hlit.ne_identifier, atom_of_isLiteral _ hlit]
  | @ref us _ t args hkind hargs hnext =>
    obtain ⟨r, hn, hr⟩ := hs.next_cons
    obtain ⟨r', heq, hr'⟩ := arguments_of_isAtoms hinner hargs hnext
      (by rw [List.length_cons] at hlen; omega) hr
    refine ⟨t, r, r', hn, ?_, hr'⟩
    rw [operand, if_pos hkind, heq]
    rfl
  | @paren us _ t c _ hopen hsum hclose =>
    obtain ⟨r, hn, hr⟩ := hs.next_cons
    obtain ⟨r', heq, hr'⟩ := atom_of_isSum hinner hopen hsum hclose
      (by rw [List.length_cons] at hlen; omega) hr
    refine ⟨t, r, r', hn, ?_, hr'⟩
    rw [operand, if_neg (by simp [hopen]), heq]

theorem chain_stop (hs : s.Holds ts) (hpower : (nextKind ts).leftPower ≤ power) :
    chain inner power lhs s = .ok (lhs, s) := by
  obtain ⟨t, r, hn, hkind⟩ := hs.exists_next
  rw [← hkind] at hpower
  rw [chain]
  split <;> simp_all

theorem chain_step {op : Op} {r' : Stream} (hn : s.next = .ok (t, r))
    (hkind : t.kind = .operator op) (hpower : power < t.kind.leftPower)
    (hrhs : (inner t.kind.leftPower).run r = .ok (rhs, r')) :
    chain inner power lhs s = chain inner power (.binary op lhs rhs) r' := by
  rw [chain]
  split
  · simp_all
  · next t' r'' hn' =>
    obtain ⟨rfl, rfl⟩ : t' = t ∧ r'' = r := by simpa [hn] using hn'.symm
    rw [if_neg (by omega)]
    split
    · simp_all [Token.Kind.op?]
    · next op' hop =>
      obtain rfl : op' = op := by simpa [hkind, Token.Kind.op?] using hop.symm
      split
      · simp_all
      · next heq =>
        rw [hrhs] at heq
        cases heq
        rfl

/-- An operator that binds more tightly than `power` is taken together with its right operand. -/
theorem chain_join {op : Op} (hinner : ∀ power, Complete (inner power) power n)
    (hs : s.Holds (t :: us)) (hkind : t.kind = .operator op) (hpower : power < t.kind.leftPower)
    (hrhs : IsExpr t.kind.leftPower us rhs rest)
    (hnext : (nextKind rest).leftPower ≤ t.kind.leftPower) (hlen : us.length ≤ rest.length + n) :
    ∃ r, chain inner power lhs s = chain inner power (.binary op lhs rhs) r ∧ r.Holds rest := by
  obtain ⟨r, hn, hr⟩ := hs.next_cons
  obtain ⟨r', hrun, hr'⟩ := hinner _ hrhs hnext hlen hr
  exact ⟨r', chain_step hn hkind hpower hrun, hr'⟩

theorem level_of_isOperand (hinner : ∀ power, Complete (inner power) power n) (power : Int)
    (h : IsOperand ts e rest) (hlen : ts.length ≤ rest.length + (n + 1)) (hs : s.Holds ts) :
    ∃ r, (level inner power).run s = chain inner power e r ∧ r.Holds rest := by
  obtain ⟨t, r, r', hn, ho, hr'⟩ := operand_of_isOperand hinner h hlen hs
  refine ⟨r', ?_, hr'⟩
  simp [level, hn, ho, bind, Except.bind]

/-- A product takes one level as far as its last operand: from there on the level goes on as it
does after any operand. -/
theorem level_of_isProduct (hinner : ∀ power, Complete (inner power) power n)
    (hpower : power < 3) (hs : s.Holds ts) {rest : List Token} {e : Expr} :
    IsProduct ts e rest → ts.length ≤ rest.length + (n + 1) →
      ∃ r, (level inner power).run s = chain inner power e r ∧ r.Holds rest
  | .operand h, hlen => level_of_isOperand hinner power h hlen hs
  | @IsProduct.join _ us _ t _ rhs hlhs hkind hrhs, hlen => by
    -- The operator makes the right operand shorter than the whole, which pays for its level.
    have hlen₁ := hlhs.takes.length_lt
    have hlen₂ := hrhs.takes.length_lt
    rw [List.length_cons] at hlen₁
    obtain ⟨r, hlevel, hr⟩ :=
      level_of_isProduct hinner hpower hs hlhs (by rw [List.length_cons]; omega)
    have hlp : t.kind.leftPower = 3 := by rw [hkind]; rfl
    have htight : power < t.kind.leftPower := by omega
    have hexpr : IsExpr t.kind.leftPower us rhs rest := by rwa [hlp, isExpr_of_le (by decide)]
    have hnext : (nextKind rest).leftPower ≤ t.kind.leftPower := hlp ▸ Token.Kind.leftPower_le _
    obtain ⟨r', hchain, hr'⟩ := chain_join hinner hr hkind htight hexpr hnext (by omega)
    exact ⟨r', hlevel.trans hchain, hr'⟩

/-- A sum takes one level as far as its last product, unless `*` goes on with that product. -/
theorem level_of_isSum (hinner : ∀ power, Complete (inner power) power n)
    (hpower : power < 2) (hs : s.Holds ts) {rest : List Token} {e : Expr} :
    IsSum ts e rest → nextKind rest ≠ .operator .mul → ts.length ≤ rest.length + (n + 1) →
      ∃ r, (level inner power).run s = chain inner power e r ∧ r.Holds rest
  | .product h, _, hlen => level_of_isProduct hinner (by omega) hs h hlen
  | @IsSum.join _ us _ t op _ rhs hlhs hkind hop hrhs, hnext, hlen => by
    have hlen₁ := hlhs.takes.length_lt
    have hlen₂ := hrhs.takes.length_lt
    rw [List.length_cons] at hlen₁
    have hlp : t.kind.leftPower = 2 := by rcases hop with rfl | rfl <;> rw [hkind] <;> rfl
    have htight : power < t.kind.leftPower := by omega
    -- The sum on the left is followed by this very operator, so `*` does not go on with it.
    have hmul : nextKind (t :: us) ≠ .operator .mul :=
      Token.Kind.ne_mul_of_leftPower_le (Int.le_of_eq hlp)
    obtain ⟨r, hlevel, hr⟩ :=
      level_of_isSum hinner hpower hs hlhs hmul (by rw [List.length_cons]; omega)
    have hexpr : IsExpr t.kind.leftPower us rhs rest := by
      rwa [hlp, isExpr_of_lt_three (by decide) (by decide)]
    have hnext' : (nextKind rest).leftPower ≤ t.kind.leftPower :=
      hlp ▸ Token.Kind.leftPower_le_two hnext
    obtain ⟨r', hchain, hr'⟩ := chain_join hinner hr hkind htight hexpr hnext' (by omega)
    exact ⟨r', hlevel.trans hchain, hr'⟩

theorem complete_level (hinner : ∀ power, Complete (inner power) power n) (power : Int) :
    Complete (level inner power) power (n + 1) := by
  intro ts rest e s h hnext hlen hs
  have hlevel : ∃ r, (level inner power).run s = chain inner power e r ∧ r.Holds rest := by
    by_cases h2 : power < 2
    · rw [isExpr_of_lt_two h2] at h
      exact level_of_isSum hinner h2 hs h (Token.Kind.ne_mul_of_leftPower_le (by omega)) hlen
    by_cases h3 : power < 3
    · rw [isExpr_of_lt_three h2 h3] at h
      exact level_of_isProduct hinner h3 hs h hlen
    · rw [isExpr_of_le (by omega)] at h
      exact level_of_isOperand hinner power h hlen hs
  obtain ⟨r, heq, hr⟩ := hlevel
  exact ⟨r, heq.trans (chain_stop hr hnext), hr⟩

/-- **The expression parser is complete.** With `depth` levels of nesting it reads every phrase of
at most `depth` tokens. -/
theorem complete_parserWithin (limit depth : Nat) (power : Int) :
    Complete (parserWithin limit depth power) power depth := by
  induction depth generalizing power with
  | zero =>
    intro ts rest e s h _ hlen _
    have := h.takes.length_lt
    omega
  | succ depth ih => exact complete_level ih power

end Expr

end Blockscript
