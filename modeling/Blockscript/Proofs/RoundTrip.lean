import Blockscript.Proofs.Printing
import Blockscript.Proofs.ProgramParsing

/-!
# A printed program is read back

The text of a program consists of its words, so it is enough that the grammar derives the program
from any tokens with these words. That is where the parentheses are put to the test: an operand is
printed without them exactly if the rule for its place derives it as it stands. With `Expr.power`
for the power at which an expression is derived, both sides are about the same number.

## Main definitions

* `Expr.power` : the power of the rule that derives an expression without parentheses.
* `DeriveExpr`, `DeriveKeywordStmt` : words from which the grammar derives an expression, and a
  statement.

## Main results

* `Expr.WellFormed.deriveExpr` : the words of an expression derive it at its power.
* `Stmt.WellFormed.deriveKeywordStmt`, `Program.isProgram_of_words` : the words of a statement and of
  a program derive it.
* `Program.parse_print` : reading the text of a program gives the program back.
-/

namespace Blockscript

variable {sp : Decimal.Speller} {t : Token} {phrase ts us rest : List Token} {e : Expr}

/-! ### Tokens with given words -/

theorem Token.word_eq_iff {kind : Token.Kind} {text : List Char} :
    t.word = ⟨kind, text⟩ ↔ t.kind = kind ∧ t.text.toList = text := by
  rw [Token.word, Word.mk.injEq]

theorem Token.kind_of_word_fixed {kind : Token.Kind} (h : t.word = Word.fixed kind) :
    t.kind = kind :=
  (Token.word_eq_iff.mp h).1

theorem Token.name_of_word {name : String} (h : t.word = ⟨.identifier, name.toList⟩) :
    t.kind = .identifier ∧ t.text = name := by
  obtain ⟨hkind, htext⟩ := Token.word_eq_iff.mp h
  exact ⟨hkind, String.toList_inj.mp htext⟩

/-- Tokens for words in parentheses are an opening one, those of the words, and a closing one. -/
theorem exists_of_map_enclose {ws : List Word} (h : phrase.map Token.word = Word.enclose true ws) :
    ∃ o inner c, phrase = o :: (inner ++ [c]) ∧ o.kind = .openParen ∧
      inner.map Token.word = ws ∧ c.kind = .closeParen := by
  obtain ⟨o, us, rfl, ho, hus⟩ := List.map_eq_cons_iff.mp h
  obtain ⟨inner, last, rfl, hinner, hlast⟩ := List.map_eq_append_iff.mp hus
  obtain ⟨c, none, rfl, hc, hnone⟩ := List.map_eq_cons_iff.mp hlast
  obtain rfl := List.map_eq_nil_iff.mp hnone
  exact ⟨o, inner, c, rfl, Token.kind_of_word_fixed ho, hinner, Token.kind_of_word_fixed hc⟩

/-! ### Literals -/

theorem Decimal.ofDigits_toDigits (n : Nat) : ofDigits (Nat.toDigits 10 n) = n :=
  Nat.ofDigitChars_toDigits (by decide) (by decide)

theorem isLiteral_int {n : Int64} (hn : 0 ≤ n)
    (h : t.word = ⟨.integer, Nat.toDigits 10 n.toInt.toNat⟩) : IsLiteral t (.int n) := by
  obtain ⟨hkind, htext⟩ := Token.word_eq_iff.mp h
  have hvalue : Decimal.ofDigits t.text.toList = n.toInt.toNat := by
    rw [htext, Decimal.ofDigits_toDigits]
  have hnonneg : 0 ≤ n.toInt := Int64.le_iff_toInt_le.mp hn
  have hlt : n.toInt < 2 ^ 63 := n.toInt_lt
  have hn' : Int64.ofNat (Decimal.ofDigits t.text.toList) = n := by
    rw [hvalue, ← Int64.ofInt_eq_ofNat, Int.toNat_of_nonneg hnonneg, Int64.ofInt_toInt]
  rw [← hn']
  exact .integer hkind (by rw [hvalue, Nat.pow_eq]; omega)

theorem isLiteral_float {text : List Char} (htext : Decimal.IsDecimal text)
    (h : t.word = ⟨.float, sp.spell (Decimal.float text)⟩) :
    IsLiteral t (.float (Decimal.float text)) := by
  obtain ⟨hkind, htext'⟩ := Token.word_eq_iff.mp h
  rw [← (sp.spells text htext).2, ← htext']
  exact .float hkind

theorem Expr.unquote_enquote {s text : String} (h : text.toList = Text.enquote s.toList) :
    unquote text = s := by
  rw [unquote, h, Text.enquote]
  simp

theorem isLiteral_str {s : String} (h : t.word = ⟨.string, Text.enquote s.toList⟩) :
    IsLiteral t (.str s) := by
  obtain ⟨hkind, htext⟩ := Token.word_eq_iff.mp h
  rw [← Expr.unquote_enquote htext]
  exact .string hkind

/-! ### Expressions -/

namespace Expr

/-- The power of the rule that derives the expression without parentheses around it. -/
def power : Expr → Int
  | .binary .mul _ _ => 2
  | .binary .. => 0
  | _ => 3

theorem power_nonneg (e : Expr) : 0 ≤ e.power := by
  unfold power
  split <;> decide

theorem power_of_isAdditive {e : Expr} (h : e.isAdditive = false) : 2 ≤ e.power := by
  unfold isAdditive at h
  unfold power
  split <;> simp_all

theorem power_of_isBinary {e : Expr} (h : e.isBinary = false) : 3 ≤ e.power := by
  cases e with
  | binary op lhs rhs => cases h
  | _ => exact Int.le_refl 3

end Expr

theorem IsOperand.isExpr (h : IsOperand ts e rest) (q : Int) : IsExpr q ts e rest :=
  Expr.IsLeftOperand.isExpr (.inl h)

/-- A rule for tighter operators derives no more. -/
theorem IsExpr.mono {q q' : Int} (h : IsExpr q ts e rest) (hle : q' ≤ q) : IsExpr q' ts e rest := by
  by_cases h2 : q < 2
  · rw [isExpr_of_lt_two h2] at h
    rwa [isExpr_of_lt_two (by omega)]
  by_cases h3 : q < 3
  · rw [isExpr_of_lt_three h2 h3] at h
    exact Expr.IsLeftOperand.isExpr (.inr (.inl ⟨by omega, h⟩))
  · rw [isExpr_of_le (by omega)] at h
    exact h.isExpr q'

theorem IsExpr.isSum {q : Int} (h : IsExpr q ts e rest) : IsSum ts e rest := by
  have hmin := h.mono (Int.min_le_left q 0)
  rwa [isExpr_of_lt_two (by omega)] at hmin

/-- The words derive the expression at power `q`: all tokens with these words do, whatever follows
that cannot begin an expression. -/
def DeriveExpr (ws : List Word) (q : Int) (e : Expr) : Prop :=
  ∀ {phrase rest : List Token}, phrase.map Token.word = ws → (nextKind rest).beginsExpr = false →
    IsExpr q (phrase ++ rest) e rest

/-- Parentheses around the words of an expression, whatever follows. -/
theorem DeriveExpr.paren {ws : List Word} {q : Int} (h : DeriveExpr ws q e)
    (hphrase : phrase.map Token.word = Word.enclose true ws) (rest : List Token) :
    ∃ o us c, phrase ++ rest = o :: us ∧ o.kind = .openParen ∧ IsSum us e (c :: rest) ∧
      c.kind = .closeParen := by
  obtain ⟨o, inner, c, rfl, ho, hinner, hc⟩ := exists_of_map_enclose hphrase
  have hnext := beginsExpr_nextKind_of_closes (.inl hc) rest
  exact ⟨o, inner ++ c :: rest, c, by simp, ho, (h hinner hnext).isSum, hc⟩

/-- Parentheses make an operand of any expression. -/
theorem DeriveExpr.isOperand {ws : List Word} {q : Int} (h : DeriveExpr ws q e)
    (hphrase : phrase.map Token.word = Word.enclose true ws) (rest : List Token) :
    IsOperand (phrase ++ rest) e rest := by
  obtain ⟨o, us, c, heq, ho, hsum, hc⟩ := h.paren hphrase rest
  rw [heq]
  exact .paren ho hsum hc

/-- An operand may stand in a place of power `q'` if it has parentheses or its power suffices. -/
theorem DeriveExpr.enclose {ws : List Word} {q q' : Int} {needed : Bool} (h : DeriveExpr ws q e)
    (hneeded : needed = false → q' ≤ q) : DeriveExpr (Word.enclose needed ws) q' e := by
  intro phrase rest hphrase hnext
  cases needed with
  | true => exact (h.isOperand hphrase rest).isExpr q'
  | false => exact (h hphrase hnext).mono (hneeded rfl)

/-- Two operands and an operator between them. -/
theorem deriveExpr_binary {op : Op} {lhs rhs : Expr} {ws ws' : List Word}
    (hlhs : DeriveExpr ws (if op = .mul then 2 else 0) lhs)
    (hrhs : DeriveExpr ws' (if op = .mul then 3 else 2) rhs) :
    DeriveExpr (ws ++ Word.fixed (.operator op) :: ws') (Expr.binary op lhs rhs).power
      (.binary op lhs rhs) := by
  intro phrase rest hphrase hnext
  obtain ⟨left, right, rfl, hleft, hright⟩ := List.map_eq_append_iff.mp hphrase
  obtain ⟨t, us, rfl, ht, hus⟩ := List.map_eq_cons_iff.mp hright
  have hkind := Token.kind_of_word_fixed ht
  have hnext' : (nextKind (t :: (us ++ rest))).beginsExpr = false := by
    rw [nextKind_cons, hkind]
    rfl
  have hl := hlhs hleft hnext'
  have hr := hrhs hus hnext
  rw [List.append_assoc, List.cons_append]
  cases op with
  | mul => exact IsProduct.join hl hkind hr
  | add => exact IsSum.join hl hkind (.inl rfl) hr
  | sub => exact IsSum.join hl hkind (.inr rfl) hr

/-- What is neither joined nor applied is an atom, whatever follows. -/
theorem isAtom_of_words (h : e.WellFormed) (hcompound : e.isCompound = false)
    (hphrase : phrase.map Token.word = e.words sp) (rest : List Token) :
    IsAtom (phrase ++ rest) e rest := by
  cases h with
  | int h =>
    obtain ⟨t, rfl, ht⟩ := List.map_eq_singleton_iff.mp hphrase
    exact .literal (isLiteral_int h ht)
  | float h =>
    obtain ⟨t, rfl, ht⟩ := List.map_eq_singleton_iff.mp hphrase
    exact .literal (isLiteral_float h ht)
  | str h =>
    obtain ⟨t, rfl, ht⟩ := List.map_eq_singleton_iff.mp hphrase
    exact .literal (isLiteral_str ht)
  | @ref name args hname hargs =>
    cases args with
    | nil =>
      obtain ⟨t, rfl, ht⟩ := List.map_eq_singleton_iff.mp hphrase
      obtain ⟨hkind, rfl⟩ := Token.name_of_word ht
      exact .name hkind
    | cons arg args => cases hcompound
  | binary => cases hcompound

theorem IsAtom.isOperand (h : IsAtom ts e rest) (hnext : (nextKind rest).beginsExpr = false) :
    IsOperand ts e rest := by
  cases h with
  | name hkind => exact .ref hkind .nil hnext
  | literal h => exact .literal h
  | paren hopen h hclose => exact .paren hopen h hclose

/-- The arguments of a name are atoms: parentheses stand around those that would not be. -/
theorem isAtoms_of_argWords {args : List Expr} (hargs : ∀ arg ∈ args, arg.WellFormed)
    (hderive : ∀ arg ∈ args, DeriveExpr (arg.words sp) arg.power arg)
    (hphrase : phrase.map Token.word = Expr.argWords sp args) (rest : List Token) :
    IsAtoms (phrase ++ rest) args rest := by
  induction args generalizing phrase with
  | nil =>
    obtain rfl := List.map_eq_nil_iff.mp hphrase
    exact .nil
  | cons arg args ih =>
    obtain ⟨first, us, rfl, hfirst, hus⟩ := List.map_eq_append_iff.mp hphrase
    have hargs' : ∀ a ∈ args, a.WellFormed := fun a ha => hargs a (by simp [ha])
    rw [List.append_assoc]
    refine .cons ?_ (ih hargs' (fun a ha => hderive a (by simp [ha])) hus)
    cases hcompound : arg.isCompound with
    | false =>
      rw [hcompound] at hfirst
      exact isAtom_of_words (hargs arg (by simp)) hcompound hfirst _
    | true =>
      rw [hcompound] at hfirst
      obtain ⟨o, us', c, heq, ho, hsum, hc⟩ :=
        DeriveExpr.paren (hderive arg (by simp)) hfirst (us ++ rest)
      rw [heq]
      exact .paren ho hsum hc

/-- **The words of an expression derive it**, at the power of its outermost operator. -/
theorem Expr.WellFormed.deriveExpr (h : e.WellFormed) : DeriveExpr (e.words sp) e.power e := by
  induction h with
  | int h =>
    intro phrase rest hphrase hnext
    exact (isAtom_of_words (.int h) rfl hphrase rest).isOperand hnext
  | float h =>
    intro phrase rest hphrase hnext
    exact (isAtom_of_words (.float h) rfl hphrase rest).isOperand hnext
  | str h =>
    intro phrase rest hphrase hnext
    exact (isAtom_of_words (.str h) rfl hphrase rest).isOperand hnext
  | ref hname hargs ih =>
    intro phrase rest hphrase hnext
    obtain ⟨t, us, rfl, ht, hus⟩ := List.map_eq_cons_iff.mp hphrase
    obtain ⟨hkind, rfl⟩ := Token.name_of_word ht
    exact IsOperand.ref hkind (isAtoms_of_argWords hargs ih hus rest) hnext
  | @binary op lhs rhs _ _ ihl ihr =>
    rw [words]
    -- An operand without parentheses has at least the power that its place asks for.
    refine deriveExpr_binary (ihl.enclose fun h => ?_) (ihr.enclose fun h => ?_)
    · split
      · next hop => exact power_of_isAdditive (by simpa [hop] using h)
      · exact power_nonneg lhs
    · split
      · next hop => exact power_of_isBinary (by simpa [hop] using h)
      · next hop => exact power_of_isAdditive (by simpa [hop] using h)

/-! ### Statements -/

theorem Expr.WellFormed.isSum (h : e.WellFormed) (hphrase : phrase.map Token.word = e.words sp)
    (hnext : (nextKind rest).beginsExpr = false) : IsSum (phrase ++ rest) e rest :=
  (h.deriveExpr hphrase hnext).isSum

/-- The words derive the statement that a keyword opens, whatever follows. -/
def DeriveKeywordStmt (ws : List Word) (stmt : Stmt) : Prop :=
  ∀ {phrase : List Token}, phrase.map Token.word = ws → ∀ rest,
    IsKeywordStmt (phrase ++ rest) stmt rest

/-- In front of a semicolon the words of the body and the tail derive the block. A bare expression
of the body ends at its closing parenthesis, and what stands after that begins a statement. -/
theorem isBlock_of_words {body : List Stmt} {tail : Expr} {d : Token}
    (hbody : ∀ stmt ∈ body, stmt.WellFormed)
    (hderive : ∀ stmt ∈ body, stmt.isBare = false → DeriveKeywordStmt (stmt.words sp) stmt)
    (htail : tail.WellFormed) (hd : d.kind = .semicolon)
    (hphrase : phrase.map Token.word = Block.bodyWords sp body ++ tail.words sp)
    (rest : List Token) : IsBlock (phrase ++ d :: rest) body tail (d :: rest) := by
  induction body generalizing phrase with
  | nil =>
    refine .tail (htail.isSum hphrase (beginsExpr_nextKind_of_closes (.inr hd) rest)) ?_
    rw [nextKind_cons, hd]
    rfl
  | cons stmt body ih =>
    rw [Block.bodyWords, List.append_assoc] at hphrase
    obtain ⟨first, us, rfl, hfirst, hus⟩ := List.map_eq_append_iff.mp hphrase
    have hbody' : ∀ s ∈ body, s.WellFormed := fun s hs => hbody s (by simp [hs])
    have hblock := ih hbody' (fun s hs => hderive s (by simp [hs])) hus
    rw [List.append_assoc]
    cases stmt with
    | expr e =>
      have he : e.WellFormed := by
        cases hbody (.expr e) (by simp)
        assumption
      have hoperand := DeriveExpr.isOperand he.deriveExpr hfirst (us ++ d :: rest)
      exact .expr (.product (.operand hoperand)) hblock.beginsStmt hblock
    | print e => exact .stmt (hderive (.print e) (by simp) rfl hfirst _) hblock
    | assign name block => exact .stmt (hderive (.assign name block) (by simp) rfl hfirst _) hblock

theorem map_name_of_words {params : List String}
    (h : phrase.map Token.word = params.map fun param => ⟨.identifier, param.toList⟩) :
    (∀ name ∈ phrase, name.kind = .identifier) ∧ phrase.map Token.text = params := by
  induction params generalizing phrase with
  | nil =>
    obtain rfl := List.map_eq_nil_iff.mp h
    simp
  | cons param params ih =>
    obtain ⟨t, us, rfl, ht, hus⟩ := List.map_eq_cons_iff.mp h
    obtain ⟨hkind, rfl⟩ := Token.name_of_word ht
    obtain ⟨hkinds, rfl⟩ := ih hus
    exact ⟨by simpa [hkind] using hkinds, rfl⟩

/-- **The words of a statement derive it** if a keyword opens it. -/
theorem Stmt.WellFormed.deriveKeywordStmt {stmt : Stmt} (h : stmt.WellFormed)
    (hbare : stmt.isBare = false) : DeriveKeywordStmt (stmt.words sp) stmt := by
  induction h with
  | @assign name params body tail hname hparams hdistinct hbody htail ih =>
    intro phrase hphrase rest
    obtain ⟨t, us, rfl, ht, hphrase⟩ := List.map_eq_cons_iff.mp hphrase
    obtain ⟨n, us, rfl, hn, hphrase⟩ := List.map_eq_cons_iff.mp hphrase
    obtain ⟨blk, last, rfl, hblk, hlast⟩ := List.map_eq_append_iff.mp hphrase
    obtain ⟨d, rfl, hd⟩ := List.map_eq_singleton_iff.mp hlast
    obtain ⟨names, us, rfl, hnames, hblk⟩ := List.map_eq_append_iff.mp hblk
    obtain ⟨q, us, rfl, hq, hus⟩ := List.map_eq_cons_iff.mp hblk
    obtain ⟨hkind, rfl⟩ := Token.name_of_word hn
    obtain ⟨hkinds, rfl⟩ := map_name_of_words hnames
    have hd := Token.kind_of_word_fixed hd
    have hblock := isBlock_of_words hbody ih htail hd hus rest
    simp only [List.cons_append, List.append_assoc]
    exact .assign (Token.kind_of_word_fixed ht) hkind hkinds hdistinct (Token.kind_of_word_fixed hq)
      hblock hd
  | print h =>
    intro phrase hphrase rest
    obtain ⟨t, us, rfl, ht, hphrase⟩ := List.map_eq_cons_iff.mp hphrase
    obtain ⟨inner, last, rfl, hinner, hlast⟩ := List.map_eq_append_iff.mp hphrase
    obtain ⟨d, rfl, hd⟩ := List.map_eq_singleton_iff.mp hlast
    have hd := Token.kind_of_word_fixed hd
    have hnext := beginsExpr_nextKind_of_closes (.inr hd) rest
    have hsum := h.isSum hinner hnext
    simp only [List.cons_append, List.append_assoc]
    exact .print (Token.kind_of_word_fixed ht) hsum hd
  | expr h => cases hbare

/-! ### Programs -/

namespace Program

/-- The words of a program derive it. -/
theorem isProgram_of_words {p : Program} (h : p.WellFormed)
    (hts : ts.map Token.word = p.words sp) : IsProgram ts p := by
  induction p generalizing ts with
  | nil =>
    obtain rfl := List.map_eq_nil_iff.mp hts
    exact .nil
  | cons stmt p ih =>
    rw [words, List.flatMap_cons] at hts
    obtain ⟨first, us, rfl, hfirst, hus⟩ := List.map_eq_append_iff.mp hts
    obtain ⟨phrase, last, rfl, hphrase, hlast⟩ := List.map_eq_append_iff.mp hfirst
    have hstmt : stmt.WellFormed := h stmt (by simp)
    refine .cons ?_ (ih (fun s hs => h s (by simp [hs])) hus)
    cases hbare : stmt.isBare with
    | false =>
      obtain rfl : last = [] := by simpa [hbare] using hlast
      rw [List.append_nil]
      exact .keyword (hstmt.deriveKeywordStmt hbare hphrase us)
    | true =>
      rw [hbare] at hlast
      obtain ⟨d, rfl, hd⟩ := List.map_eq_singleton_iff.mp hlast
      have hd := Token.kind_of_word_fixed hd
      have hnext := beginsExpr_nextKind_of_closes (.inr hd) us
      rw [List.append_assoc, List.singleton_append]
      cases hstmt with
      | expr he => exact .ended (he.isSum hphrase hnext) hd
      | _ => cases hbare

/-- **Reading the text of a program gives the program back**, when as many levels of nesting are
permitted as it has words. -/
theorem parse_print (sp : Decimal.Speller) (p : Program) (h : p.WellFormed) :
    ∀ limit ≥ (p.words sp).length, parse (p.print sp) limit = .ok p := by
  intro limit hlimit
  obtain ⟨hwords, hend⟩ := Stream.scan_of_writes (writes_print sp h) 0
  refine statements_of_isProgram (isProgram_of_words h hwords) ?_ ⟨rfl, hend⟩
  rwa [← List.length_map Token.word, hwords]

/-- A program in which every construct and every rule for parentheses occurs. -/
def specimen : Program :=
  [.assign "f" ⟨["a", "b"],
      [.expr (.ref "g" [.ref "a" []]),
        .assign "c" ⟨[], [], .float (Decimal.float ['2', '.', '5'])⟩],
      .binary .mul (.binary .add (.ref "a" []) (.ref "b" []))
        (.binary .mul (.ref "c" []) (.int 3))⟩,
    .expr (.binary .sub (.int 1) (.binary .add (.int 2) (.str "it's"))),
    .print (.ref "f" [.ref "x" [.int 1], .str "a\x22b"])]

theorem specimen_wellFormed : specimen.WellFormed := by
  have hname {name : String} (h : IsName name.toList) : (Expr.ref name []).WellFormed :=
    .ref h (by simp)
  have hdecimal : Decimal.IsDecimal ['2', '.', '5'] :=
    ⟨['2'], ['5'], ⟨by simp, List.all_eq_true.mp rfl⟩, ⟨by simp, List.all_eq_true.mp rfl⟩, rfl⟩
  have hbare : (Expr.ref "g" [.ref "a" []]).WellFormed :=
    .ref (by decide) (by simpa using hname (by decide))
  have hlocal : (Stmt.assign "c" ⟨[], [], .float (Decimal.float ['2', '.', '5'])⟩).WellFormed :=
    .assign (by decide) (by simp) (by simp) (by simp) (.float hdecimal)
  have hcall : (Expr.ref "x" [.int 1]).WellFormed :=
    .ref (by decide) (by simpa using .int (by decide))
  rw [WellFormed, specimen]
  simp only [List.forall_mem_cons, List.not_mem_nil, false_implies, implies_true, and_true]
  refine ⟨.assign (by decide) (by decide) (by decide) ?_ ?_, .expr ?_, .print (.ref (by decide) ?_)⟩
  · simpa using ⟨.expr hbare, hlocal⟩
  · exact .binary (.binary (hname (by decide)) (hname (by decide)))
      (.binary (hname (by decide)) (.int (by decide)))
  · exact .binary (.int (by decide)) (.binary (.int (by decide)) (.str (by decide)))
  · simpa using ⟨hcall, .str (by decide)⟩

theorem parse_print_specimen :
    specimen.WellFormed ∧ ∀ limit ≥ (specimen.words .choice).length,
      parse (specimen.print .choice) limit = .ok specimen :=
  ⟨specimen_wellFormed, parse_print .choice specimen specimen_wellFormed⟩

end Program

end Blockscript
