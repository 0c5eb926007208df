import Blockscript.Decimal.Literal
import Blockscript.Parser

/-!
# Parsing expressions

An expression is an operand followed by operators with their right operands. An operator takes the
operand on its left if it binds more tightly than the power at which the expression is read, and
its own right operand is read at its own power: operators of equal power group to the left. A name
takes all the atoms that follow it as its arguments, and a name among them takes none.

The parser recurses on the number of nesting levels still permitted. Each function below handles
one level and is given the parser of the next as an argument.

## Main definitions

* `Expr.atom`, `Expr.arguments`, `Expr.operand`, `Expr.chain` : the parts of one level.
* `Expr.level` : one level of nesting, over the parser of the next.
* `Expr.parserWithin` : the parser for a given number of levels.
* `Expr.parse?` : reads an expression at a byte offset of a text.
-/

namespace Blockscript.Expr

/-- A text literal without the quotes around it. -/
def unquote (text : String) : String :=
  String.ofList (text.toList.drop 1).dropLast

/-! ### The parts of one level -/

/-- The atom that begins with `t`: a literal, or an expression in parentheses. The stream goes on
after `t`. -/
def atom (inner : Parser Expr) (t : Token) (s : Stream) : Except SyntaxError (Expr × Stream) :=
  match t.kind with
  | .integer =>
    match Decimal.int? t.text.toList with
    | some n => .ok (.int n, s)
    | none => .error (t.reject .integerOverflow)
  | .float => .ok (.float (Decimal.float t.text.toList), s)
  | .string => .ok (.str (unquote t.text), s)
  | .openParen => do
    let (e, s) ← inner.run s
    let s ← s.expect .closeParen .unclosedParen
    .ok (e, s)
  | _ => .error (t.reject .invalidExpression)

theorem size_le_of_atom {inner : Parser Expr} {t : Token} {s r : Stream} {e : Expr}
    (h : atom inner t s = .ok (e, r)) : r.size ≤ s.size := by
  rw [atom] at h
  split at h
  · split at h <;> cases h
    exact Nat.le_refl _
  · cases h
    exact Nat.le_refl _
  · cases h
    exact Nat.le_refl _
  · cases hi : inner.run s with
    | error e => simp [hi, bind, Except.bind] at h
    | ok p =>
      cases he : p.2.expect .closeParen .unclosedParen with
      | error e => simp [hi, he, bind, Except.bind] at h
      | ok r' =>
        simp only [hi, he, bind, Except.bind, Except.ok.injEq, Prod.mk.injEq] at h
        have h₁ := inner.size_lt hi
        have h₂ := Stream.size_lt_of_expect he (by decide)
        rw [← h.2]
        omega
  · cases h

/-- The arguments that follow a name: all the atoms, up to a token that begins none. A name among
them is a reference without arguments. -/
def arguments (inner : Parser Expr) (s : Stream) : Except SyntaxError (List Expr × Stream) :=
  match hn : s.next with
  | .error e => .error e
  | .ok (t, r) =>
    if hk : t.kind = .identifier then
      have := Stream.size_lt_of_next hn (by simp [hk])
      match arguments inner r with
      | .error e => .error e
      | .ok (args, s') => .ok (.ref t.text [] :: args, s')
    else if hb : t.kind.beginsExpr then
      match ha : atom inner t r with
      | .error e => .error e
      | .ok (arg, r') =>
        have := Stream.size_lt_of_next hn (by rintro h; simp [h, Token.Kind.beginsExpr] at hb)
        have := size_le_of_atom ha
        match arguments inner r' with
        | .error e => .error e
        | .ok (args, s') => .ok (arg :: args, s')
    else .ok ([], s)
termination_by s.size

theorem size_le_of_arguments {inner : Parser Expr} {s r : Stream} {args : List Expr}
    (h : arguments inner s = .ok (args, r)) : r.size ≤ s.size := by
  fun_induction arguments inner s generalizing args r with
  | case1 => cases h
  | case2 => cases h
  | case3 s t r' hn hk hlt args' s' ha ih =>
    cases h
    have := ih ha
    omega
  | case4 => cases h
  | case5 => cases h
  | case6 s t r' hn hk hb arg r'' ha hlt hle args' s' hargs ih =>
    cases h
    have := ih hargs
    omega
  | case7 =>
    cases h
    exact Nat.le_refl _

/-- The operand that begins with `t`: an atom, or a name with its arguments. The stream goes on
after `t`. -/
def operand (inner : Parser Expr) (t : Token) (s : Stream) : Except SyntaxError (Expr × Stream) :=
  if t.kind = .identifier then do
    let (args, s) ← arguments inner s
    .ok (.ref t.text args, s)
  else atom inner t s

theorem size_le_of_operand {inner : Parser Expr} {t : Token} {s r : Stream} {e : Expr}
    (h : operand inner t s = .ok (e, r)) : r.size ≤ s.size := by
  rw [operand] at h
  split at h
  · cases ha : arguments inner s with
    | error e => simp [ha, bind, Except.bind] at h
    | ok p =>
      simp only [ha, bind, Except.bind, Except.ok.injEq, Prod.mk.injEq] at h
      exact h.2 ▸ size_le_of_arguments ha
  · exact size_le_of_atom h

/-- The operators that follow `lhs` and bind more tightly than `power`, each with its right
operand. A token that should bind more tightly but is no operator is an error. -/
def chain (inner : Int → Parser Expr) (power : Int) (lhs : Expr) (s : Stream) :
    Except SyntaxError (Expr × Stream) :=
  match hn : s.next with
  | .error e => .error e
  | .ok (t, r) =>
    if t.kind.leftPower ≤ power then .ok (lhs, s)
    else match t.kind.op? with
      | none => .error (t.reject .unknownOperator)
      | some op =>
        match hr : (inner t.kind.leftPower).run r with
        | .error e => .error e
        | .ok (rhs, r') =>
          have := Stream.size_le_of_next hn
          have := (inner t.kind.leftPower).size_lt hr
          chain inner power (.binary op lhs rhs) r'
termination_by s.size

theorem size_le_of_chain {inner : Int → Parser Expr} {power : Int} {lhs e : Expr} {s r : Stream}
    (h : chain inner power lhs s = .ok (e, r)) : r.size ≤ s.size := by
  fun_induction chain inner power lhs s with
  | case1 => cases h
  | case2 =>
    cases h
    exact Nat.le_refl _
  | case3 => cases h
  | case4 => cases h
  | case5 lhs s t r' hn hp op hop rhs r'' hr hle hlt ih =>
    have := ih h
    omega

/-! ### The levels -/

/-- One level of nesting: an expression whose operators bind more tightly than `power`, over the
parsers `inner` of the next level. -/
def level (inner : Int → Parser Expr) (power : Int) : Parser Expr where
  run s := do
    let (t, s) ← s.next
    let (lhs, s) ← operand (inner 0) t s
    chain inner power lhs s
  size_lt {s r e} h := by
    cases hn : s.next with
    | error e => simp [hn, bind, Except.bind] at h
    | ok p =>
      cases ho : operand (inner 0) p.1 p.2 with
      | error e => simp [hn, ho, bind, Except.bind] at h
      | ok q =>
        simp only [hn, ho, bind, Except.bind] at h
        have h₁ : p.2.size < s.size := by
          refine Stream.size_lt_of_next hn fun hk => ?_
          simp [operand, atom, hk] at ho
        have h₂ := size_le_of_operand ho
        have h₃ := size_le_of_chain h
        omega

/-- The parser for expressions whose operators bind more tightly than `power`, with `depth` levels
of nesting still permitted out of `limit`. -/
def parserWithin (limit : Nat) : (depth : Nat) → (power : Int) → Parser Expr
  | 0, _ => .tooDeep limit
  | depth + 1, power => level (parserWithin limit depth) power

/-- Reads an expression at a byte offset of a text, with operators that bind more tightly than
`power`: the expression and the offset after it. There is no answer if the offset lies beyond the
end or inside a character. The rest of the text need not make sense. -/
def parse? (text : String) (offset : Nat) (power : Int) (limit : Nat) :
    Option (Except SyntaxError (Expr × Nat)) :=
  (Stream.ofText? text offset).map fun s =>
    ((parserWithin limit limit power).run s).map fun (e, rest) => (e, rest.start)

end Blockscript.Expr
