import Blockscript.Proofs.Lexing
import Blockscript.Stmt

/-!
# Printing programs

A program is printed as a sequence of words, and the words are laid out with a blank or a line feed
between them. Parentheses stand only where the tree would be lost without them:

* around the left operand of `*` if it is a sum, and around the right one if it joins anything;
* around the right operand of `+` and `-` if it is a sum;
* around an argument that joins anything or takes arguments itself;
* around a bare expression in the body of a block, which nothing else ends.

What a number with a decimal point means is left to `Decimal.float`, so a printer has to be told
how such a number is written. A `Decimal.Speller` knows that of every number that can be written at
all.

## Main definitions

* `Decimal.Speller` : how to write numbers with a decimal point.
* `Expr.WellFormed`, `Stmt.WellFormed`, `Program.WellFormed` : what can be printed.
* `Expr.words`, `Stmt.words`, `Program.words` : the words of a program.
* `Program.print` : the text of a program.

## Main results

* `Program.spelled_words` : the words of a well-formed program are written properly.
* `Program.writes_print` : the text of a program consists of its words.
-/

namespace Blockscript

/-! ### Programs that can be printed -/

/-- How to write the numbers that have a decimal point: a text for every number that is the value of
one. -/
structure Decimal.Speller where
  /-- The text of a number. -/
  spell : Float → List Char
  /-- It is written properly, and its value is the number. -/
  spells : ∀ text, IsDecimal text →
    IsDecimal (spell (float text)) ∧ float (spell (float text)) = float text

/-- There is such a choice of texts. -/
noncomputable def Decimal.Speller.choice : Decimal.Speller where
  spell x := open Classical in
    if h : ∃ text, IsDecimal text ∧ float text = x then h.choose else []
  spells text htext := by
    have h : ∃ text', IsDecimal text' ∧ float text' = float text := ⟨text, htext, rfl⟩
    rw [dif_pos h]
    exact h.choose_spec

/-- The expressions that can be written down. -/
inductive Expr.WellFormed : Expr → Prop where
  | int {n : Int64} (h : 0 ≤ n) : WellFormed (.int n)
  | float {text : List Char} (h : Decimal.IsDecimal text) : WellFormed (.float (Decimal.float text))
  | str {s : String} (h : '\x22' ∉ s.toList ∨ '\x27' ∉ s.toList) : WellFormed (.str s)
  | ref {name : String} {args : List Expr} (hname : IsName name.toList)
    (hargs : ∀ arg ∈ args, WellFormed arg) : WellFormed (.ref name args)
  | binary {op : Op} {lhs rhs : Expr} (hlhs : WellFormed lhs) (hrhs : WellFormed rhs) :
    WellFormed (.binary op lhs rhs)

/-- The statements that can be written down. -/
inductive Stmt.WellFormed : Stmt → Prop where
  | assign {name : String} {params : List String} {body : List Stmt} {tail : Expr}
    (hname : IsName name.toList) (hparams : ∀ param ∈ params, IsName param.toList)
    (hdistinct : params.Nodup) (hbody : ∀ stmt ∈ body, WellFormed stmt) (htail : tail.WellFormed) :
    WellFormed (.assign name ⟨params, body, tail⟩)
  | print {e : Expr} (h : e.WellFormed) : WellFormed (.print e)
  | expr {e : Expr} (h : e.WellFormed) : WellFormed (.expr e)

/-- The programs that can be written down. -/
def Program.WellFormed (p : Program) : Prop :=
  ∀ stmt ∈ p, stmt.WellFormed

/-! ### The words of a program -/

/-- The characters of a token that is always written in the same way. -/
def Token.Kind.spelling : Token.Kind → List Char
  | .keyword word => word.text.toList
  | .operator op => op.symbol.toList
  | .openParen => ['(']
  | .closeParen => [')']
  | .equals => ['=']
  | .semicolon => [';']
  | _ => []

/-- The word of a token that is always written in the same way. -/
def Word.fixed (kind : Token.Kind) : Word :=
  ⟨kind, kind.spelling⟩

/-- Words in parentheses, if there is need of them. -/
def Word.enclose (needed : Bool) (ws : List Word) : List Word :=
  if needed then fixed .openParen :: (ws ++ [fixed .closeParen]) else ws

/-- A text between quotes of a sort that it does not contain. -/
def Text.enquote (cs : List Char) : List Char :=
  let quote := if '\x22' ∈ cs then '\x27' else '\x22'
  quote :: (cs ++ [quote])

namespace Expr

/-- Whether the expression joins two operands. -/
def isBinary : Expr → Bool
  | .binary .. => true
  | _ => false

/-- Whether the expression joins two operands by `+` or `-`. -/
def isAdditive : Expr → Bool
  | .binary .mul _ _ => false
  | .binary .. => true
  | _ => false

/-- Whether the expression joins two operands or takes arguments. -/
def isCompound : Expr → Bool
  | .binary .. => true
  | .ref _ (_ :: _) => true
  | _ => false

mutual

/-- The words of an expression. -/
def words (sp : Decimal.Speller) : Expr → List Word
  | .int n => [⟨.integer, Nat.toDigits 10 n.toInt.toNat⟩]
  | .float x => [⟨.float, sp.spell x⟩]
  | .str s => [⟨.string, Text.enquote s.toList⟩]
  | .ref name args => ⟨.identifier, name.toList⟩ :: argWords sp args
  | .binary op lhs rhs =>
    Word.enclose (op = .mul && lhs.isAdditive) (lhs.words sp) ++ Word.fixed (.operator op) ::
      Word.enclose (if op = .mul then rhs.isBinary else rhs.isAdditive) (rhs.words sp)

/-- The words of the arguments of a name. -/
def argWords (sp : Decimal.Speller) : List Expr → List Word
  | [] => []
  | arg :: args => Word.enclose arg.isCompound (arg.words sp) ++ argWords sp args

end

end Expr

/-- Whether the statement is a bare expression. -/
def Stmt.isBare : Stmt → Bool
  | .expr _ => true
  | _ => false

mutual

/-- The words of a statement, except that nothing ends a bare expression. -/
def Stmt.words (sp : Decimal.Speller) : Stmt → List Word
  | .assign name block =>
    Word.fixed (.keyword .letWord) :: ⟨.identifier, name.toList⟩ ::
      (Block.words sp block ++ [Word.fixed .semicolon])
  | .print e => Word.fixed (.keyword .printWord) :: (e.words sp ++ [Word.fixed .semicolon])
  | .expr e => e.words sp

/-- The words of a block: its parameters, an equals sign, its body and its tail. -/
def Block.words (sp : Decimal.Speller) : BlockOf Stmt → List Word
  | ⟨params, body, tail⟩ =>
    params.map (fun param => ⟨.identifier, param.toList⟩) ++ Word.fixed .equals ::
      (Block.bodyWords sp body ++ tail.words sp)

/-- The words of the body of a block, in which a bare expression is put into parentheses. -/
def Block.bodyWords (sp : Decimal.Speller) : List Stmt → List Word
  | [] => []
  | stmt :: body => Word.enclose stmt.isBare (stmt.words sp) ++ Block.bodyWords sp body

end

/-- The words of a program, in which a semicolon ends a bare expression. -/
def Program.words (sp : Decimal.Speller) (p : Program) : List Word :=
  p.flatMap fun stmt => stmt.words sp ++ if stmt.isBare then [Word.fixed .semicolon] else []

/-! ### The text of a program -/

/-- What stands between two words: nothing inside parentheses and in front of a semicolon, a line
feed after a semicolon, and a blank elsewhere. -/
def Word.gap (left right : Token.Kind) : List Char :=
  if left = .openParen ∨ right = .closeParen ∨ right = .semicolon then []
  else if left = .semicolon then ['\n']
  else [' ']

/-- Words one after the other. -/
def Word.layout : List Word → List Char
  | [] => []
  | [w] => w.text
  | w :: w' :: ws => w.text ++ (gap w.kind w'.kind ++ layout (w' :: ws))

/-- The text of a program. -/
def Program.print (sp : Decimal.Speller) (p : Program) : String :=
  String.ofList (Word.layout (p.words sp))

/-! ### The words are written properly -/

namespace Word

theorem spelled_fixed {kind : Token.Kind} (h : kind.spelling ≠ []) : (fixed kind).Spelled := by
  cases kind with
  | keyword word => exact .keyword word
  | operator op => cases op <;> exact .symbol rfl
  | openParen => exact .symbol rfl
  | closeParen => exact .symbol rfl
  | equals => exact .symbol rfl
  | semicolon => exact .symbol rfl
  | _ => exact absurd rfl h

theorem spelled_enclose {needed : Bool} {ws : List Word} (h : ∀ w ∈ ws, w.Spelled) :
    ∀ w ∈ enclose needed ws, w.Spelled := by
  intro w hw
  rw [enclose] at hw
  split at hw
  · simp only [List.mem_cons, List.mem_append, List.not_mem_nil, or_false] at hw
    rcases hw with rfl | hw | rfl
    · exact spelled_fixed (by decide)
    · exact h w hw
    · exact spelled_fixed (by decide)
  · exact h w hw

theorem spelled_enquote {cs : List Char} (h : '\x22' ∉ cs ∨ '\x27' ∉ cs) :
    Spelled ⟨.string, Text.enquote cs⟩ := by
  rw [Text.enquote]
  split
  · next hmem => exact .string (.inr rfl) (h.resolve_left fun h => h hmem)
  · next hmem => exact .string (.inl rfl) hmem

end Word

theorem Decimal.isDigits_toDigits (n : Nat) : IsDigits (Nat.toDigits 10 n) :=
  ⟨Nat.toDigits_ne_nil, fun _ => Nat.isDigit_of_mem_toDigits (by decide) (by decide)⟩

namespace Expr

variable {sp : Decimal.Speller}

theorem argWords_eq (args : List Expr) :
    argWords sp args = args.flatMap fun arg => Word.enclose arg.isCompound (arg.words sp) := by
  induction args with
  | nil => rfl
  | cons arg args ih => rw [argWords, ih, List.flatMap_cons]

theorem WellFormed.spelled_words {e : Expr} (h : e.WellFormed) : ∀ w ∈ e.words sp, w.Spelled := by
  induction h with
  | int h =>
    intro w hw
    obtain rfl := List.mem_singleton.mp hw
    exact .integer (Decimal.isDigits_toDigits _)
  | float h =>
    intro w hw
    obtain rfl := List.mem_singleton.mp hw
    exact .float (sp.spells _ h).1
  | str h =>
    intro w hw
    obtain rfl := List.mem_singleton.mp hw
    exact Word.spelled_enquote h
  | ref hname _ ih =>
    intro w hw
    rw [words, argWords_eq] at hw
    rcases List.mem_cons.mp hw with rfl | hw
    · exact .name hname
    · obtain ⟨arg, harg, hw⟩ := List.mem_flatMap.mp hw
      exact Word.spelled_enclose (ih arg harg) w hw
  | @binary op lhs rhs _ _ ihl ihr =>
    intro w hw
    rw [words] at hw
    rcases List.mem_append.mp hw with hw | hw
    · exact Word.spelled_enclose ihl w hw
    · rcases List.mem_cons.mp hw with rfl | hw
      · exact Word.spelled_fixed (by cases op <;> decide)
      · exact Word.spelled_enclose ihr w hw

end Expr

theorem Block.bodyWords_eq {sp : Decimal.Speller} (body : List Stmt) :
    bodyWords sp body = body.flatMap fun stmt => Word.enclose stmt.isBare (stmt.words sp) := by
  induction body with
  | nil => rfl
  | cons stmt body ih => rw [bodyWords, ih, List.flatMap_cons]

theorem Stmt.WellFormed.spelled_words {sp : Decimal.Speller} {stmt : Stmt} (h : stmt.WellFormed) :
    ∀ w ∈ stmt.words sp, w.Spelled := by
  induction h with
  | @assign name params body tail hname hparams _ _ htail ih =>
    intro w hw
    simp only [Stmt.words, Block.words, Block.bodyWords_eq, List.mem_cons, List.mem_append,
      List.mem_map, List.mem_flatMap, List.not_mem_nil, or_false] at hw
    rcases hw with rfl | rfl | (⟨param, hparam, rfl⟩ | rfl | ⟨stmt, hstmt, hw⟩ | hw) | rfl
    · exact Word.spelled_fixed (by decide)
    · exact .name hname
    · exact .name (hparams param hparam)
    · exact Word.spelled_fixed (by decide)
    · exact Word.spelled_enclose (ih stmt hstmt) w hw
    · exact htail.spelled_words w hw
    · exact Word.spelled_fixed (by decide)
  | print h =>
    intro w hw
    simp only [Stmt.words, List.mem_cons, List.mem_append, List.not_mem_nil, or_false] at hw
    rcases hw with rfl | hw | rfl
    · exact Word.spelled_fixed (by decide)
    · exact h.spelled_words w hw
    · exact Word.spelled_fixed (by decide)
  | expr h =>
    intro w hw
    rw [Stmt.words] at hw
    exact h.spelled_words w hw

/-- The words of a well-formed program are written properly. -/
theorem Program.spelled_words {sp : Decimal.Speller} {p : Program} (h : p.WellFormed) :
    ∀ w ∈ p.words sp, w.Spelled := by
  intro w hw
  obtain ⟨stmt, hstmt, hw⟩ := List.mem_flatMap.mp hw
  rcases List.mem_append.mp hw with hw | hw
  · exact (h stmt hstmt).spelled_words w hw
  · split at hw
    · obtain rfl := List.mem_singleton.mp hw
      exact Word.spelled_fixed (by decide)
    · cases hw

/-! ### The text consists of the words -/

namespace Word

variable {w w' : Word} {ws : List Word} {rest : List Char}

/-- A character that ends words ends numbers too. -/
theorem stops_of_endsWord (h : ∀ c ∈ rest.head?, endsWord c = true) : w.Stops rest := by
  have hnumber : ∀ c ∈ rest.head?, spoilsNumber c = false := fun c hc =>
    (continuesWord_spoilsNumber_of_endsWord (h c hc)).2
  rw [Stops]
  split
  · exact h
  · exact h
  · exact hnumber
  · exact hnumber
  · trivial

theorem Spelled.text_of_closing (h : w.Spelled)
    (hkind : w.kind = .closeParen ∨ w.kind = .semicolon) : ∃ c, w.text = [c] ∧ endsWord c = true := by
  cases h with
  | @symbol kind c h =>
    refine ⟨c, rfl, ?_⟩
    rw [Lexeme.symbolKind?] at h
    split_ifs at h <;> subst_vars <;> rfl
  | _ => simp at hkind

theorem layout_cons (w : Word) (ws : List Word) : ∃ rest, layout (w :: ws) = w.text ++ rest := by
  cases ws with
  | nil => exact ⟨[], (List.append_nil _).symm⟩
  | cons w' ws => exact ⟨_, rfl⟩

/-- A word stops at what stands between it and the next one. -/
theorem stops_gap (hw' : w'.Spelled) : w.Stops (gap w.kind w'.kind ++ layout (w' :: ws)) := by
  rw [gap]
  split_ifs with hnone
  · rcases hnone with hopen | hclosing
    · rw [Stops, hopen]
      trivial
    · obtain ⟨c, htext, hc⟩ := hw'.text_of_closing hclosing
      obtain ⟨rest, hrest⟩ := layout_cons w' ws
      apply stops_of_endsWord
      simp [hrest, htext, hc]
  · exact stops_of_endsWord fun c hc => by cases hc; rfl
  · exact stops_of_endsWord fun c hc => by cases hc; rfl

theorem isLayout_of_mem_gap {left right : Token.Kind} :
    ∀ c ∈ gap left right, Text.isLayout c = true := by
  rw [gap]
  split_ifs
  · simp
  · exact List.all_eq_true.mp rfl
  · exact List.all_eq_true.mp rfl

/-- Properly written words that are laid out make a text of these words. -/
theorem writes_layout {before : List Char} (hbefore : ∀ c ∈ before, Text.isLayout c = true)
    (hws : ∀ w ∈ ws, w.Spelled) : Writes ws (before ++ layout ws) := by
  induction ws generalizing before with
  | nil => exact .nil (by simpa [layout] using hbefore)
  | cons w ws ih =>
    have hw : w.Spelled := hws w (by simp)
    have hws' : ∀ w ∈ ws, w.Spelled := fun w hw => hws w (by simp [hw])
    cases ws with
    | nil =>
      have hrest : Writes [] [] := .nil (by simp)
      have hstops : w.Stops [] := stops_of_endsWord (by simp)
      simpa [layout] using Writes.cons hbefore hw hstops hrest
    | cons w' ws =>
      exact .cons hbefore hw (stops_gap (hws' w' (by simp))) (ih isLayout_of_mem_gap hws')

end Word

/-- The text of a well-formed program consists of its words. -/
theorem Program.writes_print (sp : Decimal.Speller) {p : Program} (h : p.WellFormed) :
    Writes (p.words sp) (p.print sp).toList := by
  rw [print, String.toList_ofList, ← List.nil_append (Word.layout _)]
  exact Word.writes_layout (by simp) (spelled_words h)

example (sp : Decimal.Speller) :
    Program.print sp
      [.assign "f" ⟨["a"], [.expr (.ref "g" [.ref "a" []])],
          .binary .mul (.binary .add (.ref "a" []) (.int 1)) (.binary .mul (.int 2) (.ref "a" []))⟩,
        .expr (.binary .sub (.binary .sub (.int 3) (.int 2))
          (.binary .mul (.int 1) (.ref "f" [.str "x"])))]
      = "let f a = (g a) (a + 1) * (2 * a);\n3 - 2 - 1 * f \x22x\x22;" := by
  rfl

end Blockscript
