import Blockscript.Expr.Parser
import Blockscript.Stmt

/-!
# Parsing statements, blocks and programs

A `print` or `let` statement ends with a semicolon; after a bare expression the semicolon may be
missing. A block has no closing mark: a bare expression is its tail unless the next token begins
another statement, and then the expression is a statement of the body.

## Main definitions

* `Stmt.printRest`, `Stmt.assignRest`, `Stmt.keywordRest` : what follows a keyword.
* `Block.parts`, `Block.parserWithin` : blocks, which count as a level of nesting.
* `Stmt.parserWithin`, `Program.statements` : statements and programs.
* `Stmt.parse?`, `Program.parse` : reading source text.
-/

namespace Blockscript

namespace Stmt

/-! ### What follows a keyword -/

/-- What follows `print`: an expression and a semicolon. -/
def printRest (expr : Parser Expr) (s : Stream) : Except SyntaxError (Stmt × Stream) := do
  let (e, s) ← expr.run s
  let s ← s.expect .semicolon (.delimiterRequired .printWord)
  .ok (.print e, s)

theorem size_lt_of_printRest {expr : Parser Expr} {s r : Stream} {stmt : Stmt}
    (h : printRest expr s = .ok (stmt, r)) : r.size < s.size := by
  cases he : expr.run s with
  | error e => simp [printRest, he, bind, Except.bind] at h
  | ok p =>
    cases hs : p.2.expect .semicolon (.delimiterRequired .printWord) with
    | error e => simp [printRest, he, hs, bind, Except.bind] at h
    | ok r' =>
      simp only [printRest, he, hs, bind, Except.bind, Except.ok.injEq, Prod.mk.injEq] at h
      have h₁ := expr.size_lt he
      have h₂ := Stream.size_lt_of_expect hs (by decide)
      rw [← h.2]
      omega

/-- The parameters after those of `params`, up to and including the equals sign. -/
def parameters (params : List String) (s : Stream) : Except SyntaxError (List String × Stream) :=
  match hn : s.next with
  | .error e => .error e
  | .ok (t, r) =>
    if hk : t.kind = .identifier then
      if t.text ∈ params then .error (t.reject .duplicateParameter)
      else
        have := Stream.size_lt_of_next hn (by simp [hk])
        parameters (params ++ [t.text]) r
    else if t.kind = .equals then .ok (params, r)
    else .error (t.reject .invalidAssignment)
termination_by s.size

theorem size_lt_of_parameters {params params' : List String} {s r : Stream}
    (h : parameters params s = .ok (params', r)) : r.size < s.size := by
  fun_induction parameters params s with
  | case1 => cases h
  | case2 => cases h
  | case3 params s t r' hn hk hmem hlt ih =>
    have := ih h
    omega
  | case4 params s t r' hn hk he =>
    cases h
    exact Stream.size_lt_of_next hn (by simp [he])
  | case5 => cases h

/-- What follows `let`: a name, parameters, an equals sign, a block and a semicolon. -/
def assignRest (block : List String → Parser Block) (s : Stream) :
    Except SyntaxError (Stmt × Stream) := do
  let (t, s) ← s.next
  if t.kind = .identifier then
    let (params, s) ← parameters [] s
    let (b, s) ← (block params).run s
    let s ← s.expect .semicolon (.delimiterRequired .letWord)
    .ok (.assign t.text b, s)
  else .error (t.reject .invalidAssignment)

theorem size_lt_of_assignRest {block : List String → Parser Block} {s r : Stream} {stmt : Stmt}
    (h : assignRest block s = .ok (stmt, r)) : r.size < s.size := by
  cases hn : s.next with
  | error e => simp [assignRest, hn, bind, Except.bind] at h
  | ok p =>
    simp only [assignRest, hn, bind, Except.bind] at h
    split at h
    · cases hp : parameters [] p.2 with
      | error e => simp [hp] at h
      | ok q =>
        cases hb : (block q.1).run q.2 with
        | error e => simp [hp, hb] at h
        | ok u =>
          cases hs : u.2.expect .semicolon (.delimiterRequired .letWord) with
          | error e => simp [hp, hb, hs] at h
          | ok r' =>
            simp only [hp, hb, hs, Except.ok.injEq, Prod.mk.injEq] at h
            have h₁ := Stream.size_le_of_next hn
            have h₂ := size_lt_of_parameters hp
            have h₃ := (block q.1).size_lt hb
            have h₄ := Stream.size_lt_of_expect hs (by decide)
            rw [← h.2]
            omega
    · cases h

/-- What follows a keyword, over the parsers for the expressions and the blocks in it. -/
def keywordRest (expr : Parser Expr) (block : List String → Parser Block) (word : Keyword)
    (s : Stream) : Except SyntaxError (Stmt × Stream) :=
  match word with
  | .printWord => printRest expr s
  | .letWord => assignRest block s

theorem size_lt_of_keywordRest {expr : Parser Expr} {block : List String → Parser Block}
    {word : Keyword} {s r : Stream} {stmt : Stmt}
    (h : keywordRest expr block word s = .ok (stmt, r)) : r.size < s.size := by
  cases word with
  | printWord => exact size_lt_of_printRest h
  | letWord => exact size_lt_of_assignRest h

end Stmt

/-! ### Blocks -/

namespace Block

/-- The body and the tail of a block, over the parsers for the expressions and the blocks in it. -/
def parts (expr : Parser Expr) (block : List String → Parser Block) (s : Stream) :
    Except SyntaxError ((List Stmt × Expr) × Stream) :=
  match hn : s.next with
  | .error e => .error e
  | .ok (t, r) =>
    match t.kind with
    | .keyword word =>
      match hs : Stmt.keywordRest expr block word r with
      | .error e => .error e
      | .ok (stmt, r') =>
        have := Stream.size_le_of_next hn
        have := Stmt.size_lt_of_keywordRest hs
        match parts expr block r' with
        | .error e => .error e
        | .ok ((body, tail), s') => .ok ((stmt :: body, tail), s')
    | kind =>
      if kind.beginsExpr then
        match he : expr.run s with
        | .error e => .error e
        | .ok (e, s') =>
          have := expr.size_lt he
          match s'.next with
          | .error e => .error e
          | .ok (follow, _) =>
            if follow.kind.beginsStmt then
              match parts expr block s' with
              | .error e => .error e
              | .ok ((body, tail), s'') => .ok ((.expr e :: body, tail), s'')
            else .ok (([], e), s')
      else .error (t.reject .missingTail)
termination_by s.size

theorem size_lt_of_parts {expr : Parser Expr} {block : List String → Parser Block} {s r : Stream}
    {p : List Stmt × Expr} (h : parts expr block s = .ok (p, r)) : r.size < s.size := by
  fun_induction parts expr block s generalizing p r with
  | case1 => cases h
  | case2 => cases h
  | case3 => cases h
  | case4 s t r' hn word hk stmt r'' hs hle hlt body tail s' hp ih =>
    cases h
    have := ih hp
    omega
  | case5 => cases h
  | case6 => cases h
  | case7 => cases h
  | case8 s t r' hn e s' he hlt follow r'' hf hstmt body tail s'' hp hk hb ih =>
    cases h
    have := ih hp
    omega
  | case9 =>
    cases h
    assumption
  | case10 => cases h

/-- The parser for a block with the given parameters, with `depth` levels of nesting still
permitted out of `limit`. The block takes one of them, and what is in it shares the rest. -/
def parserWithin (limit : Nat) : (depth : Nat) → (params : List String) → Parser Block
  | 0, _ => .tooDeep limit
  | depth + 1, params => {
      run := fun s => do
        let ((body, tail), s) ←
          parts (Expr.parserWithin limit depth 0) (parserWithin limit depth) s
        .ok (⟨params, body, tail⟩, s)
      size_lt := fun {s r b} h => by
        cases hp : parts (Expr.parserWithin limit depth 0) (parserWithin limit depth) s with
        | error e => simp [hp, bind, Except.bind] at h
        | ok q =>
          simp only [hp, bind, Except.bind, Except.ok.injEq, Prod.mk.injEq] at h
          exact h.2 ▸ size_lt_of_parts hp }

end Block

/-! ### Statements -/

namespace Stmt

/-- What begins with an expression: a statement of that expression, with the semicolon after it if
there is one. -/
def bareRest (expr : Parser Expr) (s : Stream) : Except SyntaxError (Stmt × Stream) := do
  let (e, s) ← expr.run s
  let (follow, rest) ← s.next
  if follow.kind = .semicolon then .ok (.expr e, rest) else .ok (.expr e, s)

theorem size_lt_of_bareRest {expr : Parser Expr} {s r : Stream} {stmt : Stmt}
    (h : bareRest expr s = .ok (stmt, r)) : r.size < s.size := by
  cases he : expr.run s with
  | error e => simp [bareRest, he, bind, Except.bind] at h
  | ok p =>
    cases hn : p.2.next with
    | error e => simp [bareRest, he, hn, bind, Except.bind] at h
    | ok q =>
      have h₁ := expr.size_lt he
      have h₂ := Stream.size_le_of_next hn
      simp only [bareRest, he, hn, bind, Except.bind] at h
      split at h <;>
      · simp only [Except.ok.injEq, Prod.mk.injEq] at h
        rw [← h.2]
        omega

/-- The parser for a statement, over the parsers for the expressions and the blocks in it. -/
def parser (expr : Parser Expr) (block : List String → Parser Block) : Parser Stmt where
  run s := do
    let (t, rest) ← s.next
    match t.kind with
    | .keyword word => keywordRest expr block word rest
    | kind => if kind.beginsExpr then bareRest expr s else .error (t.reject .invalidStatement)
  size_lt {s r stmt} h := by
    cases hn : s.next with
    | error e => simp [hn, bind, Except.bind] at h
    | ok p =>
      have hle := Stream.size_le_of_next hn
      simp only [hn, bind, Except.bind] at h
      split at h
      · have := size_lt_of_keywordRest h
        omega
      · split at h
        · exact size_lt_of_bareRest h
        · cases h

/-- The parser for a statement that may be nested to `limit` levels. -/
def parserWithin (limit : Nat) : Parser Stmt :=
  parser (Expr.parserWithin limit limit 0) (Block.parserWithin limit limit)

/-- Reads a statement at a byte offset of a text: the statement and the offset after it. There is
no answer if the offset lies beyond the end or inside a character. The rest of the text need not
make sense. -/
def parse? (text : String) (offset : Nat) (limit : Nat) :
    Option (Except SyntaxError (Stmt × Nat)) :=
  (Stream.ofText? text offset).map fun s =>
    ((parserWithin limit).run s).map fun (stmt, rest) => (stmt, rest.start)

end Stmt

/-! ### Programs -/

namespace Program

/-- The nesting of expressions and blocks that is permitted unless a limit is set. -/
def defaultLimit : Nat := 256

/-- All the statements up to the end of the text. -/
def statements (stmt : Parser Stmt) (s : Stream) : Except SyntaxError Program :=
  match s.next with
  | .error e => .error e
  | .ok (t, _) =>
    if t.kind = .eof then .ok []
    else
      match h : stmt.run s with
      | .error e => .error e
      | .ok (first, s') =>
        have := stmt.size_lt h
        match statements stmt s' with
        | .error e => .error e
        | .ok rest => .ok (first :: rest)
termination_by s.size

/-- Reads a program whose expressions and blocks are nested to at most `limit` levels. -/
def parse (text : String) (limit : Nat) : Except SyntaxError Program :=
  statements (Stmt.parserWithin limit) (Stream.ofText text)

end Program

end Blockscript
