import Blockscript.Decimal.Literal
import Blockscript.Expr.Parser
import Blockscript.Stmt
import Mathlib.Data.List.Basic

/-!
# The grammar

What a program is, as rules over sequences of tokens:

```
Sum      := Product | Sum ('+' | '-') Product
Product  := Operand | Product '*' Operand
Operand  := literal | name Atom* | '(' Sum ')'
Atom     := name | literal | '(' Sum ')'
Block    := (print | assignment | Sum)* Sum
Stmt     := print | assignment | Sum [';']
print    := 'print' Sum ';'
assignment := 'let' name name* '=' Block ';'
Program  := Stmt* end
```

Read without context these rules are ambiguous. Three remarks about the token that comes next settle
what is meant: a name takes all the atoms that follow it, a bare expression in a block is its tail
unless another statement can begin after it, and a bare expression of a program takes a semicolon
that follows it.

Because of these remarks a rule relates three things: the tokens from some place on, the tree that
is read there, and the tokens after it. Trees are those of `Expr` and `Stmt`, in which parentheses
leave no trace.

## Main definitions

* `IsSum`, `IsProduct`, `IsOperand`, `IsAtom`, `IsAtoms` : the rules for expressions.
* `IsKeywordStmt`, `IsBlock`, `IsStmt`, `IsProgram` : the rules for statements, blocks and programs.

## Main results

* `IsSum.takes`, `IsBlock.takes`, `IsStmt.takes` : a phrase takes at least one token off the front.
* `IsSum.beginsExpr`, `IsKeywordStmt.exists_keyword`, `IsProgram.beginsStmt_or_nil` : what a phrase
  can begin with.
-/

namespace Blockscript

/-- The kind of the token that comes next. After the last token that is the end of the text. -/
def nextKind : List Token → Token.Kind
  | [] => .eof
  | t :: _ => t.kind

@[simp] theorem nextKind_nil : nextKind [] = .eof := rfl

@[simp] theorem nextKind_cons (t : Token) (ts : List Token) : nextKind (t :: ts) = t.kind := rfl

/-- A closing parenthesis or a semicolon ends the expression in front of it: it binds nothing. -/
theorem leftPower_nextKind_of_closes {d : Token}
    (h : d.kind = .closeParen ∨ d.kind = .semicolon) (rest : List Token) :
    (nextKind (d :: rest)).leftPower ≤ 0 := by
  rcases h with h | h <;> rw [nextKind_cons, h] <;> decide

/-- Nor does an expression begin with it. -/
theorem beginsExpr_nextKind_of_closes {d : Token}
    (h : d.kind = .closeParen ∨ d.kind = .semicolon) (rest : List Token) :
    (nextKind (d :: rest)).beginsExpr = false := by
  rcases h with h | h <;> rw [nextKind_cons, h] <;> rfl

/-! ### Expressions -/

/-- The token is a literal, and the tree is its value. Integers must be below `2 ^ 63`. -/
inductive IsLiteral (t : Token) : Expr → Prop where
  | integer (hkind : t.kind = .integer) (hlt : Decimal.ofDigits t.text.toList < Nat.pow 2 63) :
    IsLiteral t (.int (Int64.ofNat (Decimal.ofDigits t.text.toList)))
  | float (hkind : t.kind = .float) : IsLiteral t (.float (Decimal.float t.text.toList))
  | string (hkind : t.kind = .string) : IsLiteral t (.str (Expr.unquote t.text))

mutual

/-- A sum: products joined by `+` and `-`, which group to the left. -/
inductive IsSum : List Token → Expr → List Token → Prop where
  | product {ts rest : List Token} {e : Expr} (h : IsProduct ts e rest) : IsSum ts e rest
  | join {ts us rest : List Token} {t : Token} {op : Op} {lhs rhs : Expr}
    (hlhs : IsSum ts lhs (t :: us)) (hkind : t.kind = .operator op) (hop : op = .add ∨ op = .sub)
    (hrhs : IsProduct us rhs rest) : IsSum ts (.binary op lhs rhs) rest

/-- A product: operands joined by `*`, which groups to the left. -/
inductive IsProduct : List Token → Expr → List Token → Prop where
  | operand {ts rest : List Token} {e : Expr} (h : IsOperand ts e rest) : IsProduct ts e rest
  | join {ts us rest : List Token} {t : Token} {lhs rhs : Expr}
    (hlhs : IsProduct ts lhs (t :: us)) (hkind : t.kind = .operator .mul)
    (hrhs : IsOperand us rhs rest) : IsProduct ts (.binary .mul lhs rhs) rest

/-- An operand: a literal, a name with arguments, or a sum in parentheses. A name takes every atom
that follows, so no expression can begin after the last one. -/
inductive IsOperand : List Token → Expr → List Token → Prop where
  | literal {rest : List Token} {t : Token} {e : Expr} (h : IsLiteral t e) :
    IsOperand (t :: rest) e rest
  | ref {us rest : List Token} {t : Token} {args : List Expr} (hkind : t.kind = .identifier)
    (hargs : IsAtoms us args rest) (hnext : (nextKind rest).beginsExpr = false) :
    IsOperand (t :: us) (.ref t.text args) rest
  | paren {us rest : List Token} {t c : Token} {e : Expr} (hopen : t.kind = .openParen)
    (h : IsSum us e (c :: rest)) (hclose : c.kind = .closeParen) : IsOperand (t :: us) e rest

/-- An atom: a name that takes no arguments, a literal, or a sum in parentheses. -/
inductive IsAtom : List Token → Expr → List Token → Prop where
  | name {rest : List Token} {t : Token} (hkind : t.kind = .identifier) :
    IsAtom (t :: rest) (.ref t.text []) rest
  | literal {rest : List Token} {t : Token} {e : Expr} (h : IsLiteral t e) :
    IsAtom (t :: rest) e rest
  | paren {us rest : List Token} {t c : Token} {e : Expr} (hopen : t.kind = .openParen)
    (h : IsSum us e (c :: rest)) (hclose : c.kind = .closeParen) : IsAtom (t :: us) e rest

/-- Any number of atoms. -/
inductive IsAtoms : List Token → List Expr → List Token → Prop where
  | nil {ts : List Token} : IsAtoms ts [] ts
  | cons {ts us rest : List Token} {arg : Expr} {args : List Expr} (harg : IsAtom ts arg us)
    (hargs : IsAtoms us args rest) : IsAtoms ts (arg :: args) rest

end

/-! ### Statements, blocks and programs -/

mutual

/-- A statement that a keyword opens and a semicolon ends. A block has distinct parameters. -/
inductive IsKeywordStmt : List Token → Stmt → List Token → Prop where
  | print {us rest : List Token} {t d : Token} {e : Expr} (hkind : t.kind = .keyword .printWord)
    (h : IsSum us e (d :: rest)) (hsemi : d.kind = .semicolon) :
    IsKeywordStmt (t :: us) (.print e) rest
  | assign {us rest params : List Token} {t name q d : Token} {body : List Stmt} {tail : Expr}
    (hkind : t.kind = .keyword .letWord) (hname : name.kind = .identifier)
    (hparams : ∀ param ∈ params, param.kind = .identifier)
    (hdistinct : (params.map Token.text).Nodup) (hequals : q.kind = .equals)
    (h : IsBlock us body tail (d :: rest)) (hsemi : d.kind = .semicolon) :
    IsKeywordStmt (t :: name :: (params ++ q :: us))
      (.assign name.text ⟨params.map Token.text, body, tail⟩) rest

/-- The body and the tail of a block. A bare expression belongs to the body if another statement can
begin after it, and is the tail otherwise. -/
inductive IsBlock : List Token → List Stmt → Expr → List Token → Prop where
  | tail {ts rest : List Token} {e : Expr} (h : IsSum ts e rest)
    (hnext : (nextKind rest).beginsStmt = false) : IsBlock ts [] e rest
  | expr {ts us rest : List Token} {e tail : Expr} {body : List Stmt} (h : IsSum ts e us)
    (hnext : (nextKind us).beginsStmt = true) (hrest : IsBlock us body tail rest) :
    IsBlock ts (.expr e :: body) tail rest
  | stmt {ts us rest : List Token} {stmt : Stmt} {body : List Stmt} {tail : Expr}
    (h : IsKeywordStmt ts stmt us) (hrest : IsBlock us body tail rest) :
    IsBlock ts (stmt :: body) tail rest

end

/-- A statement of a program. A bare expression takes a semicolon that follows it. -/
inductive IsStmt : List Token → Stmt → List Token → Prop where
  | keyword {ts rest : List Token} {stmt : Stmt} (h : IsKeywordStmt ts stmt rest) :
    IsStmt ts stmt rest
  | ended {ts rest : List Token} {d : Token} {e : Expr} (h : IsSum ts e (d :: rest))
    (hsemi : d.kind = .semicolon) : IsStmt ts (.expr e) rest
  | bare {ts rest : List Token} {e : Expr} (h : IsSum ts e rest)
    (hnext : nextKind rest ≠ .semicolon) : IsStmt ts (.expr e) rest

/-- A program: statements up to the end of the text. -/
inductive IsProgram : List Token → Program → Prop where
  | nil : IsProgram [] []
  | cons {ts us : List Token} {stmt : Stmt} {rest : Program} (h : IsStmt ts stmt us)
    (hrest : IsProgram us rest) : IsProgram ts (stmt :: rest)

/-! ### What a phrase takes

The tokens of a phrase stand in front of the tokens after it, and there is at least one. The rules
for expressions depend on each other, so every fact about them is an induction over all five. -/

/-- The tokens `rest` are what is left of `ts` when at least one token is taken off the front. -/
def Takes (ts rest : List Token) : Prop :=
  ∃ phrase, phrase ≠ [] ∧ ts = phrase ++ rest

theorem Takes.length_lt {ts rest : List Token} (h : Takes ts rest) : rest.length < ts.length := by
  obtain ⟨phrase, hne, rfl⟩ := h
  rw [List.length_append]
  have := List.length_pos_iff.mpr hne
  omega

theorem takes_cons (t : Token) (ts : List Token) : Takes (t :: ts) ts :=
  ⟨[t], by simp, rfl⟩

theorem Takes.trans {ts us rest : List Token} (h : Takes ts us) (h' : Takes us rest) :
    Takes ts rest := by
  obtain ⟨phrase, hne, rfl⟩ := h
  obtain ⟨phrase', -, rfl⟩ := h'
  exact ⟨phrase ++ phrase', by simp [hne], by simp⟩

mutual

theorem IsSum.takes {ts rest : List Token} {e : Expr} : IsSum ts e rest → Takes ts rest
  | .product h => h.takes
  | .join hlhs _ _ hrhs => hlhs.takes.trans ((takes_cons _ _).trans hrhs.takes)

theorem IsProduct.takes {ts rest : List Token} {e : Expr} : IsProduct ts e rest → Takes ts rest
  | .operand h => h.takes
  | .join hlhs _ hrhs => hlhs.takes.trans ((takes_cons _ _).trans hrhs.takes)

theorem IsOperand.takes {ts rest : List Token} {e : Expr} : IsOperand ts e rest → Takes ts rest
  | .literal _ => takes_cons _ _
  | .ref _ hargs _ => hargs.eq_or_takes.elim (fun h => h ▸ takes_cons _ _) (takes_cons _ _).trans
  | .paren _ h _ => (takes_cons _ _).trans (h.takes.trans (takes_cons _ _))

theorem IsAtom.takes {ts rest : List Token} {e : Expr} : IsAtom ts e rest → Takes ts rest
  | .name _ => takes_cons _ _
  | .literal _ => takes_cons _ _
  | .paren _ h _ => (takes_cons _ _).trans (h.takes.trans (takes_cons _ _))

theorem IsAtoms.eq_or_takes {ts rest : List Token} {args : List Expr} :
    IsAtoms ts args rest → ts = rest ∨ Takes ts rest
  | .nil => .inl rfl
  | .cons harg hargs =>
    .inr (hargs.eq_or_takes.elim (fun h => h ▸ harg.takes) harg.takes.trans)

end

theorem IsAtoms.length_le {ts rest : List Token} {args : List Expr} (h : IsAtoms ts args rest) :
    rest.length ≤ ts.length := by
  rcases h.eq_or_takes with rfl | h
  · exact Nat.le_refl _
  · exact Nat.le_of_lt h.length_lt

theorem takes_assignment (t name q : Token) (params us : List Token) :
    Takes (t :: name :: (params ++ q :: us)) us :=
  ⟨t :: name :: (params ++ [q]), by simp, by simp⟩

mutual

theorem IsKeywordStmt.takes {ts rest : List Token} {stmt : Stmt} :
    IsKeywordStmt ts stmt rest → Takes ts rest
  | .print _ h _ => (takes_cons _ _).trans (h.takes.trans (takes_cons _ _))
  | .assign _ _ _ _ _ h _ => (takes_assignment ..).trans (h.takes.trans (takes_cons _ _))

theorem IsBlock.takes {ts rest : List Token} {body : List Stmt} {tail : Expr} :
    IsBlock ts body tail rest → Takes ts rest
  | .tail h _ => h.takes
  | .expr h _ hrest => h.takes.trans hrest.takes
  | .stmt h hrest => h.takes.trans hrest.takes

end

theorem IsStmt.takes {ts rest : List Token} {stmt : Stmt} (h : IsStmt ts stmt rest) :
    Takes ts rest := by
  rcases h with h | ⟨h, _⟩ | ⟨h, _⟩
  · exact h.takes
  · exact h.takes.trans (takes_cons _ _)
  · exact h.takes

/-! ### What a phrase begins with -/

theorem IsLiteral.beginsExpr {t : Token} {e : Expr} (h : IsLiteral t e) :
    t.kind.beginsExpr = true := by
  rcases h with ⟨h, _⟩ | h | h <;> rw [h] <;> rfl

theorem IsLiteral.ne_identifier {t : Token} {e : Expr} (h : IsLiteral t e) :
    t.kind ≠ .identifier := by
  rcases h with ⟨h, _⟩ | h | h <;> rw [h] <;> decide

theorem IsOperand.beginsExpr {ts rest : List Token} {e : Expr} (h : IsOperand ts e rest) :
    (nextKind ts).beginsExpr = true := by
  cases h with
  | literal h => exact h.beginsExpr
  | ref hkind _ _ => rw [nextKind_cons, hkind]; rfl
  | paren hopen _ _ => rw [nextKind_cons, hopen]; rfl

theorem IsProduct.beginsExpr {ts rest : List Token} {e : Expr} :
    IsProduct ts e rest → (nextKind ts).beginsExpr = true
  | .operand h => h.beginsExpr
  | .join hlhs _ _ => hlhs.beginsExpr

theorem IsSum.beginsExpr {ts rest : List Token} {e : Expr} :
    IsSum ts e rest → (nextKind ts).beginsExpr = true
  | .product h => h.beginsExpr
  | .join hlhs _ _ _ => hlhs.beginsExpr

theorem IsKeywordStmt.exists_keyword {ts rest : List Token} {stmt : Stmt}
    (h : IsKeywordStmt ts stmt rest) : ∃ t us word, ts = t :: us ∧ t.kind = .keyword word := by
  cases h with
  | print hkind _ _ => exact ⟨_, _, _, rfl, hkind⟩
  | assign hkind _ _ _ _ _ _ => exact ⟨_, _, _, rfl, hkind⟩

theorem IsKeywordStmt.beginsStmt {ts rest : List Token} {stmt : Stmt}
    (h : IsKeywordStmt ts stmt rest) : (nextKind ts).beginsStmt = true := by
  obtain ⟨t, us, word, rfl, hkind⟩ := h.exists_keyword
  rw [nextKind_cons, hkind]
  rfl

theorem Token.Kind.beginsStmt_of_beginsExpr {kind : Token.Kind} (h : kind.beginsExpr = true) :
    kind.beginsStmt = true := by
  cases kind <;> first | rfl | exact h

theorem IsBlock.beginsStmt {ts rest : List Token} {body : List Stmt} {tail : Expr}
    (h : IsBlock ts body tail rest) : (nextKind ts).beginsStmt = true := by
  cases h with
  | tail h _ => exact Token.Kind.beginsStmt_of_beginsExpr h.beginsExpr
  | expr h _ _ => exact Token.Kind.beginsStmt_of_beginsExpr h.beginsExpr
  | stmt h _ => exact h.beginsStmt

theorem IsStmt.beginsStmt {ts rest : List Token} {stmt : Stmt} (h : IsStmt ts stmt rest) :
    (nextKind ts).beginsStmt = true := by
  rcases h with h | ⟨h, _⟩ | ⟨h, _⟩
  · exact h.beginsStmt
  · exact Token.Kind.beginsStmt_of_beginsExpr h.beginsExpr
  · exact Token.Kind.beginsStmt_of_beginsExpr h.beginsExpr

theorem IsProgram.beginsStmt_or_nil {ts : List Token} {p : Program} (h : IsProgram ts p) :
    (nextKind ts).beginsStmt = true ∨ ts = [] := by
  cases h with
  | nil => exact .inr rfl
  | cons h _ => exact .inl h.beginsStmt

end Blockscript
