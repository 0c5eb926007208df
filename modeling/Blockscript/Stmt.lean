import Blockscript.Expr

/-!
# Statements, blocks and programs

A block is a list of statements followed by the expression that gives its value, and it may take
parameters. A statement binds a block to a name, prints a value, or evaluates an expression.

## Main definitions

* `BlockOf` : a block over a given type of statements, which lets `Stmt` and `Block` contain each
  other without a mutual declaration.
* `Stmt`, `Block`, `Program`.
-/

namespace Blockscript

/-- A block whose statements are of type `σ`. -/
structure BlockOf (σ : Type) where
  /-- The names of the parameters, in order. -/
  params : List String
  /-- The statements that run first. -/
  body : List σ
  /-- The expression that gives the value of the block. -/
  tail : Expr
deriving Inhabited

/-- The statements. -/
inductive Stmt where
  /-- Binds `name` to the value of a block without parameters, or to the block itself. -/
  | assign (name : String) (block : BlockOf Stmt)
  /-- Prints the value of an expression. -/
  | print (e : Expr)
  /-- Evaluates an expression. -/
  | expr (e : Expr)
deriving Inhabited

/-- A block of statements. -/
abbrev Block := BlockOf Stmt

/-- The number of arguments a block expects. -/
def BlockOf.arity {σ : Type} (b : BlockOf σ) : Nat :=
  b.params.length

/-- A program is a list of statements. -/
abbrev Program := List Stmt

end Blockscript
