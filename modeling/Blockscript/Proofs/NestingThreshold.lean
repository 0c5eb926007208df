import Mathlib.Data.Nat.Find
import Blockscript.Proofs.Comparison

/-!
# The limit on nesting is a threshold

How deeply a text is nested is found out while it is read, so a limit could matter in odd ways: it
could hide another error, or let one through, or refuse with a larger limit what it accepts with a
smaller one. It does nothing of the sort. Every text has a number of levels that it needs to be read
or refused on its own account. With fewer levels it is nested too deeply, and with more nothing
changes. The text needs at most one level more than it has tokens.

## The shape of the argument

Two runs with different limits go in `Lockstep` until the first one exceeds its limit. When it does,
every level it had has cost it a token, except the first: a parenthesis, an operator, or the keyword
in front of a block. So `Lockstep` also says what the first run must have had before it to come to
that.

## Main definitions

* `SyntaxError.exceedsLimit` : whether an error is that of nesting too deeply.
* `Lockstep` : how two runs with different limits correspond.

## Main results

* `Expr.lockstep_parserWithin`, `Block.lockstep_parserWithin`, `Stmt.lockstep_parserWithin` : the
  parsers go in lockstep.
* `Program.lockstep_parse` : whole programs.
* `Program.parse_limit_threshold` : there is a threshold.
-/

namespace Blockscript

/-- Whether the error is that of nesting more deeply than permitted. -/
def SyntaxError.exceedsLimit : SyntaxError → Bool
  | ⟨.grammar (.tooDeep _), _⟩ => true
  | _ => false

/-- Two runs, the first of them limited to `limit` levels and the second to as many or more. They
come to the same, unless the first exceeds its limit, and that takes `P`. -/
inductive Lockstep (limit : Nat) (P : Prop) {α : Type} :
    Except SyntaxError α → Except SyntaxError α → Prop where
  | ok (a : α) : Lockstep limit P (.ok a) (.ok a)
  | error {e : SyntaxError} (h : e.exceedsLimit = false) : Lockstep limit P (.error e) (.error e)
  | tooDeep (h : P) (span : Span) (y : Except SyntaxError α) :
    Lockstep limit P (.error ⟨.grammar (.tooDeep limit), span⟩) y

variable {α β : Type} {limit limit' d d' : Nat} {P Q : Prop} {s r : Stream} {t : Token}

/-! ### The steps -/

namespace Lockstep

variable {x y : Except SyntaxError α} {f g : α → Except SyntaxError β}

theorem imp (h : Lockstep limit P x y) (hPQ : P → Q) : Lockstep limit Q x y := by
  cases h with
  | ok a => exact .ok a
  | error h => exact .error h
  | tooDeep h span y => exact .tooDeep (hPQ h) span y

/-- What goes in lockstep step by step goes in lockstep. -/
theorem bind (h : Lockstep limit P x y) (hf : ∀ {a}, x = .ok a → Lockstep limit P (f a) (g a)) :
    Lockstep limit P (x >>= f) (y >>= g) := by
  cases h with
  | ok a => exact hf rfl
  | error h => exact .error h
  | tooDeep h span y => exact .tooDeep h span _

/-- Either the first run keeps its limit, and then so does the second, or it exceeds it. -/
theorem eq_or_exceeds (h : Lockstep limit P x y) :
    (y = x ∧ ∀ l span, x ≠ .error ⟨.grammar (.tooDeep l), span⟩) ∨
      P ∧ ∃ span, x = .error ⟨.grammar (.tooDeep limit), span⟩ := by
  cases h with
  | ok a => exact .inl ⟨rfl, fun l span heq => by cases heq⟩
  | error h =>
    refine .inl ⟨rfl, fun l span heq => ?_⟩
    cases heq
    cases h
  | tooDeep h span y => exact .inr ⟨h, span, rfl⟩

end Lockstep

/-- Taking a token has nothing to do with the limit. -/
theorem Stream.lockstep_next (s : Stream) : Lockstep limit P s.next s.next := by
  rw [next]
  split
  · exact .ok _
  · split
    · exact .ok _
    · exact .error rfl

theorem Stream.lockstep_expect (s : Stream) (kind : Token.Kind) {cause : String → GrammarCause}
    (hcause : ∀ t : Token, (t.reject cause).exceedsLimit = false) :
    Lockstep limit P (s.expect kind cause) (s.expect kind cause) := by
  refine s.lockstep_next.bind fun {p} _ => ?_
  dsimp only
  split
  · exact .ok _
  · exact .error (hcause p.1)

/-! ### Expressions -/

namespace Expr

variable {p p' : Parser Expr} {inner inner' : Int → Parser Expr}

theorem lockstep_atom (hp : ∀ s, Lockstep limit (d ≤ s.size) (p.run s) (p'.run s))
    (hn : s.next = .ok (t, r)) :
    Lockstep limit (d < s.size) (atom p t r) (atom p' t r) := by
  rw [atom, atom]
  cases hkind : t.kind with
  | integer =>
    dsimp only
    split
    · exact .ok _
    · exact .error rfl
  | float => exact .ok _
  | string => exact .ok _
  | openParen =>
    -- The parenthesis is the token that the level costs.
    have hlt := Stream.size_lt_of_next hn (by simp [hkind])
    refine ((hp r).imp fun hle => by omega).bind fun _ => ?_
    refine (Stream.lockstep_expect _ _ fun _ => rfl).bind fun _ => ?_
    exact .ok _
  | _ => exact .error rfl

theorem lockstep_arguments (hp : ∀ s, Lockstep limit (d ≤ s.size) (p.run s) (p'.run s))
    (s : Stream) : Lockstep limit (d < s.size) (arguments p s) (arguments p' s) := by
  rw [arguments_eq, arguments_eq]
  refine s.lockstep_next.bind fun {q} hn => ?_
  by_cases hident : q.1.kind = .identifier
  · have hlt := Stream.size_lt_of_next hn (by simp [hident])
    rw [if_pos hident, if_pos hident]
    refine ((lockstep_arguments hp q.2).imp fun h => by omega).bind fun _ => ?_
    exact .ok _
  rw [if_neg hident, if_neg hident]
  by_cases hbegins : q.1.kind.beginsExpr = true
  · have hlt := Stream.size_lt_of_next hn fun heof => by
      simp [heof, Token.Kind.beginsExpr] at hbegins
    rw [if_pos hbegins, if_pos hbegins]
    refine (lockstep_atom hp hn).bind fun {a} hatom => ?_
    have hle := size_le_of_atom hatom
    refine ((lockstep_arguments hp a.2).imp fun h => by omega).bind fun _ => ?_
    exact .ok _
  · rw [if_neg hbegins, if_neg hbegins]
    exact .ok _
termination_by s.size

theorem lockstep_operand (hp : ∀ s, Lockstep limit (d ≤ s.size) (p.run s) (p'.run s))
    (hn : s.next = .ok (t, r)) :
    Lockstep limit (d < s.size) (operand p t r) (operand p' t r) := by
  have hle := Stream.size_le_of_next hn
  rw [operand, operand]
  by_cases hident : t.kind = .identifier
  · rw [if_pos hident, if_pos hident]
    refine ((lockstep_arguments hp r).imp fun h => by omega).bind fun _ => ?_
    exact .ok _
  · rw [if_neg hident, if_neg hident]
    exact lockstep_atom hp hn

theorem lockstep_chain
    (hp : ∀ power s, Lockstep limit (d ≤ s.size) ((inner power).run s) ((inner' power).run s))
    (power : Int) (lhs : Expr) (s : Stream) :
    Lockstep limit (d < s.size) (chain inner power lhs s) (chain inner' power lhs s) := by
  rw [chain_eq, chain_eq]
  refine s.lockstep_next.bind fun {q} hn => ?_
  by_cases hpower : q.1.kind.leftPower ≤ power
  · rw [if_pos hpower, if_pos hpower]
    exact .ok _
  rw [if_neg hpower, if_neg hpower]
  cases hop : q.1.kind.op? with
  | none => exact .error rfl
  | some op =>
    -- The operator is the token that the level costs.
    have hlt := Stream.size_lt_of_next hn (by simp [Token.Kind.op?_eq_some hop])
    refine ((hp _ q.2).imp fun h => by omega).bind fun {u} hrun => ?_
    have hlt' := (inner q.1.kind.leftPower).size_lt hrun
    exact (lockstep_chain hp power _ u.2).imp fun h => by omega
termination_by s.size

/-- **Expressions** go in lockstep, and each level costs a token. -/
theorem lockstep_parserWithin (h : d ≤ d') (power : Int) (s : Stream) :
    Lockstep limit (d ≤ s.size) ((parserWithin limit d power).run s)
      ((parserWithin limit' d' power).run s) := by
  induction d generalizing d' power s with
  | zero => exact .tooDeep (Nat.zero_le _) _ _
  | succ d ih =>
    obtain ⟨d', rfl⟩ : ∃ k, d' = k + 1 := ⟨d' - 1, by omega⟩
    have hinner := fun power s => ih (Nat.le_of_succ_le_succ h) power s
    refine s.lockstep_next.bind fun {q} hn => ?_
    refine (lockstep_operand (hinner 0) hn).bind fun {u} hoperand => ?_
    have hle := Stream.size_le_of_next hn
    have hle' := size_le_of_operand hoperand
    exact (lockstep_chain hinner power u.1 u.2).imp fun h => by omega

end Expr

/-! ### Statements -/

section

variable {expr expr' : Parser Expr} {block block' : List String → Parser Block}

theorem Stmt.lockstep_parameters (params : List String) (s : Stream) :
    Lockstep limit P (parameters params s) (parameters params s) := by
  rw [parameters_eq]
  refine s.lockstep_next.bind fun {q} hn => ?_
  by_cases hident : q.1.kind = .identifier
  · have hlt := Stream.size_lt_of_next hn (by simp [hident])
    rw [if_pos hident]
    split
    · exact .error rfl
    · exact lockstep_parameters _ q.2
  · rw [if_neg hident]
    split
    · exact .ok _
    · exact .error rfl
termination_by s.size

/-- A block may begin right behind the sign of equality, so it can do with one token less. -/
theorem Stmt.lockstep_keywordRest
    (hexpr : ∀ s, Lockstep limit (d ≤ s.size) (expr.run s) (expr'.run s))
    (hblock : ∀ params s, Lockstep limit (d ≤ s.size + 1) ((block params).run s)
      ((block' params).run s)) (word : Keyword) (s : Stream) :
    Lockstep limit (d ≤ s.size) (keywordRest expr block word s)
      (keywordRest expr' block' word s) := by
  cases word with
  | printWord =>
    refine (hexpr s).bind fun _ => ?_
    refine (Stream.lockstep_expect _ _ fun _ => rfl).bind fun _ => ?_
    exact .ok _
  | letWord =>
    refine s.lockstep_next.bind fun {q} hn => ?_
    dsimp only
    by_cases hident : q.1.kind = .identifier
    · rw [if_pos hident, if_pos hident]
      refine (lockstep_parameters [] q.2).bind fun {u} hparams => ?_
      have hlt := Stream.size_lt_of_next hn (by simp [hident])
      have hlt' := size_lt_of_parameters hparams
      refine ((hblock u.1 u.2).imp fun h => by omega).bind fun _ => ?_
      refine (Stream.lockstep_expect _ _ fun _ => rfl).bind fun _ => ?_
      exact .ok _
    · rw [if_neg hident, if_neg hident]
      exact .error rfl

theorem Block.lockstep_parts
    (hexpr : ∀ s, Lockstep limit (d ≤ s.size) (expr.run s) (expr'.run s))
    (hblock : ∀ params s, Lockstep limit (d ≤ s.size + 1) ((block params).run s)
      ((block' params).run s)) (s : Stream) :
    Lockstep limit (d ≤ s.size) (parts expr block s) (parts expr' block' s) := by
  rw [parts_eq, parts_eq]
  refine s.lockstep_next.bind fun {q} hn => ?_
  have hle := Stream.size_le_of_next hn
  refine Token.Kind.rel_of_keyword (fun word _ => ?_) ?_
  · refine ((Stmt.lockstep_keywordRest hexpr hblock word q.2).imp fun h => by omega).bind
      fun {u} hrest => ?_
    have hlt := Stmt.size_lt_of_keywordRest hrest
    refine ((lockstep_parts hexpr hblock u.2).imp fun h => by omega).bind fun _ => ?_
    exact .ok _
  · by_cases hbegins : q.1.kind.beginsExpr = true
    · rw [if_pos hbegins, if_pos hbegins]
      refine (hexpr s).bind fun {u} hrun => ?_
      have hlt := expr.size_lt hrun
      refine u.2.lockstep_next.bind fun {follow} _ => ?_
      split
      · refine ((lockstep_parts hexpr hblock u.2).imp fun h => by omega).bind fun _ => ?_
        exact .ok _
      · exact .ok _
    · rw [if_neg hbegins, if_neg hbegins]
      exact .error rfl
termination_by s.size

/-- **Blocks** go in lockstep. The outermost level of a block costs no token. -/
theorem Block.lockstep_parserWithin (h : d ≤ d') (params : List String) (s : Stream) :
    Lockstep limit (d ≤ s.size + 1) ((parserWithin limit d params).run s)
      ((parserWithin limit' d' params).run s) := by
  induction d generalizing d' params s with
  | zero => exact .tooDeep (Nat.zero_le _) _ _
  | succ d ih =>
    obtain ⟨d', rfl⟩ : ∃ k, d' = k + 1 := ⟨d' - 1, by omega⟩
    have hle : d ≤ d' := Nat.le_of_succ_le_succ h
    refine ((lockstep_parts (Expr.lockstep_parserWithin hle 0) (fun params s => ih hle params s)
      s).imp fun h => by omega).bind fun _ => ?_
    exact .ok _

/-- **Statements** go in lockstep. -/
theorem Stmt.lockstep_parserWithin (h : limit ≤ limit') (s : Stream) :
    Lockstep limit (limit ≤ s.size) ((parserWithin limit).run s)
      ((parserWithin limit').run s) := by
  have hexpr := @Expr.lockstep_parserWithin limit limit' limit limit' h 0
  have hblock := @Block.lockstep_parserWithin limit limit' limit limit' h
  refine s.lockstep_next.bind fun {q} hn => ?_
  have hle := Stream.size_le_of_next hn
  refine Token.Kind.rel_of_keyword (fun word _ => ?_) ?_
  · exact (lockstep_keywordRest hexpr hblock word q.2).imp fun h => by omega
  · by_cases hbegins : q.1.kind.beginsExpr = true
    · rw [if_pos hbegins, if_pos hbegins]
      refine (hexpr s).bind fun {u} _ => ?_
      refine u.2.lockstep_next.bind fun {follow} _ => ?_
      dsimp only
      split
      · exact .ok _
      · exact .ok _
    · rw [if_neg hbegins, if_neg hbegins]
      exact .error rfl

end

/-! ### Programs -/

namespace Program

theorem lockstep_statements (h : limit ≤ limit') (s : Stream) :
    Lockstep limit (limit ≤ s.size) (statements (Stmt.parserWithin limit) s)
      (statements (Stmt.parserWithin limit') s) := by
  rw [statements_eq, statements_eq]
  refine s.lockstep_next.bind fun {q} _ => ?_
  split
  · exact .ok _
  · refine (Stmt.lockstep_parserWithin h s).bind fun {u} hrun => ?_
    have hlt := (Stmt.parserWithin limit).size_lt hrun
    refine ((lockstep_statements h u.2).imp fun h => by omega).bind fun _ => ?_
    exact .ok _
termination_by s.size

/-- **Programs** go in lockstep. To exceed the limit, a text must have that many tokens. -/
theorem lockstep_parse (text : String) (h : limit ≤ limit') :
    Lockstep limit (limit ≤ (Stream.ofText text).tokens.length) (parse text limit)
      (parse text limit') :=
  lockstep_statements h (Stream.ofText text)

/-- The text is refused because it is nested more deeply than the limit. -/
def IsTooDeep (text : String) (limit : Nat) : Prop :=
  ∃ span, parse text limit = .error ⟨.grammar (.tooDeep limit), span⟩

theorem not_isTooDeep_of_lt {text : String} (h : (Stream.ofText text).tokens.length < limit) :
    ¬ IsTooDeep text limit := by
  rintro ⟨span, hparse⟩
  rcases (lockstep_parse text (Nat.le_refl limit)).eq_or_exceeds with ⟨-, hne⟩ | ⟨hle, -⟩
  · exact hne limit span hparse
  · omega

/-- A text that keeps a limit is read alike with any larger one. -/
theorem parse_eq_of_not_isTooDeep {text : String} (h : ¬ IsTooDeep text limit)
    (hle : limit ≤ limit') :
    parse text limit' = parse text limit ∧
      ∀ l span, parse text limit ≠ .error ⟨.grammar (.tooDeep l), span⟩ := by
  rcases (lockstep_parse text hle).eq_or_exceeds with hsame | ⟨-, hdeep⟩
  · exact hsame
  · exact absurd hdeep h

/-- **The limit on nesting is a threshold.** Every text needs some number of levels, at most one
more than it has tokens. With as many or more it is always read alike, or refused alike for some
other reason; with fewer it is refused for the limit. -/
theorem parse_limit_threshold (text : String) :
    ∃ n ≤ 1 + (Stream.ofText text).tokens.length, ∃ result : Except SyntaxError Program,
      (∀ limit span, result ≠ .error ⟨.grammar (.tooDeep limit), span⟩) ∧
      (∀ limit ≥ n, parse text limit = result) ∧
      ∀ limit < n, ∃ span, parse text limit = .error ⟨.grammar (.tooDeep limit), span⟩ := by
  classical
  have hbound : ¬ IsTooDeep text (1 + (Stream.ofText text).tokens.length) :=
    not_isTooDeep_of_lt (by omega)
  -- The threshold is the least limit that the text keeps.
  have hkept : ∃ n, ¬ IsTooDeep text n := ⟨_, hbound⟩
  refine ⟨Nat.find hkept, Nat.find_min' hkept hbound, parse text (Nat.find hkept), ?_, ?_, ?_⟩
  · exact (parse_eq_of_not_isTooDeep (Nat.find_spec hkept) (Nat.le_refl _)).2
  · intro limit hlimit
    exact (parse_eq_of_not_isTooDeep (Nat.find_spec hkept) hlimit).1
  · intro limit hlimit
    exact not_not.mp (Nat.find_min hkept hlimit)

end Program

end Blockscript
