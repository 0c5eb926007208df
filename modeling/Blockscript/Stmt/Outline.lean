import Blockscript.Stmt
import Blockscript.Text.Quoted
import Blockscript.Value

/-!
# Outlines

A program can be shown as an outline: every node of the tree on lines of its own, indented by its
depth, with a comma after each item of a group.

## Main definitions

* `Outline`, `Outline.lines`, `Outline.text` : labelled trees and how they are written.
* `Expr.outline`, `Stmt.outline`, `Program.outline` : the outlines of the parts of a program.
-/

namespace Blockscript

/-- A labelled tree. -/
inductive Outline where
  /-- A text on a line of its own. -/
  | leaf (text : String)
  /-- A named part of a group. -/
  | field (name : String) (value : Outline)
  /-- Items between an opening and a closing text. -/
  | group (opening : String) (items : List Outline) (closing : String)

namespace Outline

/-- Puts a comma behind the last line. -/
def withComma : List String → List String
  | [] => []
  | [line] => [line ++ ","]
  | line :: lines => line :: withComma lines

mutual

/-- The lines of an outline. A group without items stands on one line. -/
def lines : Outline → List String
  | .leaf text => [text]
  | .field name value =>
    match lines value with
    | [] => []
    | first :: rest => (name ++ ": " ++ first) :: rest
  | .group opening [] closing => [opening ++ closing]
  | .group opening items closing => opening :: itemLines items ++ [closing]

/-- The lines of the items of a group, indented. -/
def itemLines : List Outline → List String
  | [] => []
  | item :: items => (withComma (lines item)).map ("    " ++ ·) ++ itemLines items

end

/-- An outline as text, with a line feed after each line. -/
def text (outline : Outline) : String :=
  String.join (outline.lines.map (· ++ "\n"))

/-- Items in brackets. -/
def list (items : List Outline) : Outline :=
  .group "[" items "]"

/-- A label with items in parentheses. -/
def labelled (label : String) (items : List Outline) : Outline :=
  .group (label ++ "(") items ")"

/-- A label with named parts in braces. -/
def record (label : String) (fields : List (String × Outline)) : Outline :=
  .group (label ++ " \x7b") (fields.map fun (name, value) => .field name value) "\x7d"

end Outline

/-- The name of an operator in an outline. -/
def Op.label : Op → String
  | .add => "Add"
  | .sub => "Sub"
  | .mul => "Mult"

mutual

/-- The outline of an expression. -/
def Expr.outline : Expr → Outline
  | .int n => .labelled "IntegerLit" [.leaf (Value.int n).text]
  | .float x => .labelled "FloatLit" [.leaf (Value.float x).text]
  | .str s => .labelled "StringLit" [.leaf (Text.quoted s)]
  | .ref name args =>
    .record "VariableRef"
      [("ident", .leaf (Text.quoted name)), ("args", .list (Expr.outlines args))]
  | .binary op lhs rhs =>
    .record "Binary" [("lhs", lhs.outline), ("op", .leaf op.label), ("rhs", rhs.outline)]

/-- The outlines of expressions. -/
def Expr.outlines : List Expr → List Outline
  | [] => []
  | e :: rest => e.outline :: Expr.outlines rest

end

mutual

/-- The outline of a statement. -/
def Stmt.outline : Stmt → Outline
  | .assign name block =>
    .record "Let" [("ident", .leaf (Text.quoted name)), ("block", Block.outline block)]
  | .print e => .labelled "Print" [e.outline]
  | .expr e => .labelled "ExprStmt" [e.outline]

/-- The outline of a block. -/
def Block.outline : BlockOf Stmt → Outline
  | ⟨params, body, tail⟩ =>
    .record "Block"
      [("params", .list (params.map fun param => .leaf (Text.quoted param))),
        ("body", .list (Stmt.outlines body)),
        ("tail", tail.outline)]

/-- The outlines of statements. -/
def Stmt.outlines : List Stmt → List Outline
  | [] => []
  | stmt :: rest => stmt.outline :: Stmt.outlines rest

end

/-- The outline of a program. -/
def Program.outline (program : Program) : Outline :=
  .record "Program" [("stmts", .list (Stmt.outlines program))]

end Blockscript
