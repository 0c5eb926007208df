import Blockscript.Proofs.Forwarding
import Blockscript.Proofs.Printing
import Blockscript.Proofs.ProgramParsing
import Blockscript.Proofs.Rescanning
import Mathlib.Algebra.Ring.Int.Defs

/-!
# The leaves of a program

The names and literals of a program stand at its leaves: the names that are bound, the parameters,
the names that are referred to, and the values. When a program has been read from a text, its leaves
are the tokens of the text, without those that only give the tree its shape, in the same order. So
whatever is true of all names and literals that can be written is true of all names and literals of
a program, however deeply they are nested.

The parameters of a block are moreover distinct, since the grammar demands it. That is what a call
relies on: it binds the parameters one after the other in one scope, and of two with the same name
the second would win.

## Main definitions

* `Leaf`, `Token.leaf?` : names and literals, and the tokens that are such.
* `Expr.leaves`, `Stmt.leaves`, `Program.leaves` : the leaves of a tree, from left to right.
* `Program.blocks` : the blocks of a program, nested ones included.
* `Block.BindsOwnArguments` : in a call, each parameter stands for its own argument.

## Main results

* `IsSum.leaves_eq`, `IsKeywordStmt.leaves_eq`, `IsProgram.leaves_eq` : the leaves are the tokens.
* `IsProgram.wellFormed` : a program that is read can be written down.
* `Block.bindsOwnArguments` : what distinct parameters are good for.
* `Program.parse_wellFormed` : the headline.
-/

namespace Blockscript

/-! ### Leaves -/

/-- A name, or the value of a literal. -/
inductive Leaf where
  | name (text : String)
  | int (value : Int)
  | float (value : Float)
  | str (value : String)

/-- What stands at the leaf that a token makes. The value of an integer is what its digits denote. -/
def Token.leaf? (t : Token) : Option Leaf :=
  match t.kind with
  | .identifier => some (.name t.text)
  | .integer => some (.int (Decimal.ofDigits t.text.toList))
  | .float => some (.float (Decimal.float t.text.toList))
  | .string => some (.str (Expr.unquote t.text))
  | _ => none

/-- The leaves that tokens make. -/
def tokenLeaves (ts : List Token) : List Leaf :=
  ts.filterMap Token.leaf?

mutual

/-- The leaves of an expression. -/
def Expr.leaves : Expr → List Leaf
  | .int n => [.int n.toInt]
  | .float x => [.float x]
  | .str s => [.str s]
  | .ref name args => .name name :: Expr.argLeaves args
  | .binary _ lhs rhs => lhs.leaves ++ rhs.leaves

/-- The leaves of the arguments of a name. -/
def Expr.argLeaves : List Expr → List Leaf
  | [] => []
  | arg :: args => arg.leaves ++ Expr.argLeaves args

end

mutual

/-- The leaves of a statement. -/
def Stmt.leaves : Stmt → List Leaf
  | .assign name block => .name name :: Block.leaves block
  | .print e => e.leaves
  | .expr e => e.leaves

/-- The leaves of a block: its parameters, those of its body, and those of its tail. -/
def Block.leaves : BlockOf Stmt → List Leaf
  | ⟨params, body, tail⟩ => params.map .name ++ (Stmt.bodyLeaves body ++ tail.leaves)

/-- The leaves of statements, one after the other. -/
def Stmt.bodyLeaves : List Stmt → List Leaf
  | [] => []
  | stmt :: body => stmt.leaves ++ Stmt.bodyLeaves body

end

/-- The leaves of a program. -/
def Program.leaves (p : Program) : List Leaf :=
  Stmt.bodyLeaves p

/-! ### The leaves are the tokens -/

section

variable {ts rest : List Token} {t : Token} {e : Expr}

theorem tokenLeaves_cons (t : Token) (ts : List Token) :
    tokenLeaves (t :: ts) = t.leaf?.toList ++ tokenLeaves ts := by
  rw [tokenLeaves, List.filterMap_cons]
  cases t.leaf? <;> rfl

theorem tokenLeaves_append (ts us : List Token) :
    tokenLeaves (ts ++ us) = tokenLeaves ts ++ tokenLeaves us :=
  List.filterMap_append

/-- A token that only gives the tree its shape. -/
theorem tokenLeaves_cons_of_kind {kind : Token.Kind} (h : t.kind = kind)
    (hkind : ∀ text span, Token.leaf? ⟨kind, text, span⟩ = none) (ts : List Token) :
    tokenLeaves (t :: ts) = tokenLeaves ts := by
  subst h
  rw [tokenLeaves_cons, hkind t.text t.span]
  rfl

theorem tokenLeaves_cons_name (h : t.kind = .identifier) (ts : List Token) :
    tokenLeaves (t :: ts) = .name t.text :: tokenLeaves ts := by
  rw [tokenLeaves_cons, Token.leaf?, h]
  rfl

theorem IsLiteral.leaf_eq (h : IsLiteral t e) : t.leaf?.toList = e.leaves := by
  cases h with
  | integer hkind hlt =>
    rw [Token.leaf?, hkind, Expr.leaves, Int64.toInt_ofNat_of_lt hlt]
    rfl
  | float hkind =>
    rw [Token.leaf?, hkind, Expr.leaves]
    rfl
  | string hkind =>
    rw [Token.leaf?, hkind, Expr.leaves]
    rfl

mutual

theorem IsSum.leaves_eq {ts rest : List Token} {e : Expr} :
    IsSum ts e rest → tokenLeaves ts = e.leaves ++ tokenLeaves rest
  | .product h => h.leaves_eq
  | .join hlhs hkind _ hrhs => by
    rw [hlhs.leaves_eq, tokenLeaves_cons_of_kind hkind (fun _ _ => rfl), hrhs.leaves_eq, Expr.leaves,
      List.append_assoc]

theorem IsProduct.leaves_eq {ts rest : List Token} {e : Expr} :
    IsProduct ts e rest → tokenLeaves ts = e.leaves ++ tokenLeaves rest
  | .operand h => h.leaves_eq
  | .join hlhs hkind hrhs => by
    rw [hlhs.leaves_eq, tokenLeaves_cons_of_kind hkind (fun _ _ => rfl), hrhs.leaves_eq, Expr.leaves,
      List.append_assoc]

theorem IsOperand.leaves_eq {ts rest : List Token} {e : Expr} :
    IsOperand ts e rest → tokenLeaves ts = e.leaves ++ tokenLeaves rest
  | .literal h => by rw [tokenLeaves_cons, h.leaf_eq]
  | .ref hkind hargs _ => by
    rw [tokenLeaves_cons_name hkind, hargs.leaves_eq, Expr.leaves, List.cons_append]
  | .paren hopen h hclose => by
    rw [tokenLeaves_cons_of_kind hopen (fun _ _ => rfl), h.leaves_eq,
      tokenLeaves_cons_of_kind hclose (fun _ _ => rfl)]

theorem IsAtom.leaves_eq {ts rest : List Token} {e : Expr} :
    IsAtom ts e rest → tokenLeaves ts = e.leaves ++ tokenLeaves rest
  | .name hkind => by
    rw [tokenLeaves_cons_name hkind, Expr.leaves, Expr.argLeaves, List.singleton_append]
  | .literal h => by rw [tokenLeaves_cons, h.leaf_eq]
  | .paren hopen h hclose => by
    rw [tokenLeaves_cons_of_kind hopen (fun _ _ => rfl), h.leaves_eq,
      tokenLeaves_cons_of_kind hclose (fun _ _ => rfl)]

theorem IsAtoms.leaves_eq {ts rest : List Token} {args : List Expr} :
    IsAtoms ts args rest → tokenLeaves ts = Expr.argLeaves args ++ tokenLeaves rest
  | .nil => by rw [Expr.argLeaves, List.nil_append]
  | .cons harg hargs => by
    rw [harg.leaves_eq, hargs.leaves_eq, Expr.argLeaves, List.append_assoc]

end

theorem tokenLeaves_of_names {names : List Token} (h : ∀ t ∈ names, t.kind = .identifier) :
    tokenLeaves names = (names.map Token.text).map .name := by
  induction names with
  | nil => rfl
  | cons t names ih =>
    obtain ⟨ht, hnames⟩ := List.forall_mem_cons.mp h
    rw [tokenLeaves_cons_name ht, ih hnames, List.map_cons, List.map_cons]

mutual

theorem IsKeywordStmt.leaves_eq {ts rest : List Token} {stmt : Stmt} :
    IsKeywordStmt ts stmt rest → tokenLeaves ts = stmt.leaves ++ tokenLeaves rest
  | .print hkind h hsemi => by
    rw [tokenLeaves_cons_of_kind hkind (fun _ _ => rfl), h.leaves_eq,
      tokenLeaves_cons_of_kind hsemi (fun _ _ => rfl), Stmt.leaves]
  | .assign hkind hname hparams _ hequals h hsemi => by
    rw [tokenLeaves_cons_of_kind hkind (fun _ _ => rfl), tokenLeaves_cons_name hname,
      tokenLeaves_append, tokenLeaves_of_names hparams,
      tokenLeaves_cons_of_kind hequals (fun _ _ => rfl), h.leaves_eq,
      tokenLeaves_cons_of_kind hsemi (fun _ _ => rfl), Stmt.leaves, Block.leaves]
    simp

theorem IsBlock.leaves_eq {ts rest : List Token} {body : List Stmt} {tail : Expr} :
    IsBlock ts body tail rest →
      tokenLeaves ts = Stmt.bodyLeaves body ++ (tail.leaves ++ tokenLeaves rest)
  | .tail h _ => by rw [h.leaves_eq, Stmt.bodyLeaves, List.nil_append]
  | .expr h _ hrest => by
    rw [h.leaves_eq, hrest.leaves_eq, Stmt.bodyLeaves, Stmt.leaves, List.append_assoc]
  | .stmt h hrest => by
    rw [h.leaves_eq, hrest.leaves_eq, Stmt.bodyLeaves, List.append_assoc]

end

theorem IsStmt.leaves_eq {stmt : Stmt} (h : IsStmt ts stmt rest) :
    tokenLeaves ts = stmt.leaves ++ tokenLeaves rest := by
  cases h with
  | keyword h => exact h.leaves_eq
  | ended h hsemi =>
    rw [h.leaves_eq, tokenLeaves_cons_of_kind hsemi (fun _ _ => rfl), Stmt.leaves]
  | bare h _ => rw [h.leaves_eq, Stmt.leaves]

/-- **The leaves of a program are its tokens**, in the same order. -/
theorem IsProgram.leaves_eq {p : Program} (h : IsProgram ts p) : p.leaves = tokenLeaves ts := by
  induction h with
  | nil => rfl
  | cons h _ ih =>
    rw [h.leaves_eq, ← ih]
    rfl

end

/-! ### What is read can be written -/

/-- The name or literal can be written down: a name is no reserved word, an integer has no sign, and
a text lacks one of the quotes. -/
def Leaf.Written : Leaf → Prop
  | .name text => IsName text.toList
  | .int value => 0 ≤ value
  | .float value => ∃ text, Decimal.IsDecimal text ∧ Decimal.float text = value
  | .str value => '\x22' ∉ value.toList ∨ '\x27' ∉ value.toList

/-- The leaf of a properly written token can be written down. -/
theorem Word.Spelled.written_of_leaf {t : Token} (h : t.word.Spelled) {l : Leaf}
    (hl : t.leaf? = some l) : l.Written := by
  obtain ⟨kind, text, span⟩ := t
  rw [Token.word] at h
  generalize htext : text.toList = cs at h
  cases h with
  | name h =>
    cases hl
    show IsName text.toList
    rwa [htext]
  | keyword word => cases hl
  | integer h =>
    cases hl
    exact Int.natCast_nonneg _
  | float h =>
    cases hl
    exact ⟨_, h, by rw [htext]⟩
  | @string quote cs hquote hcs =>
    cases hl
    have hvalue : (Expr.unquote text).toList = cs := by
      rw [Expr.unquote, htext, String.toList_ofList]
      simp
    rw [Leaf.Written, hvalue]
    rcases hquote with rfl | rfl
    · exact .inl hcs
    · exact .inr hcs
  | symbol h =>
    rw [Lexeme.symbolKind?] at h
    split_ifs at h <;> cases h <;> cases hl

theorem written_of_tokenLeaves {ts : List Token} (hts : ∀ t ∈ ts, t.word.Spelled) :
    ∀ l ∈ tokenLeaves ts, l.Written := by
  intro l hl
  obtain ⟨t, ht, hleaf⟩ := List.mem_filterMap.mp hl
  exact (hts t ht).written_of_leaf hleaf

mutual

theorem Expr.wellFormed_of_leaves : ∀ e : Expr, (∀ l ∈ e.leaves, l.Written) → e.WellFormed
  | .int n, h => .int (Int64.le_iff_toInt_le.mpr (h (.int n.toInt) (by simp [Expr.leaves])))
  | .float x, h => by
    obtain ⟨text, htext, rfl⟩ : (Leaf.float x).Written := h _ (by simp [Expr.leaves])
    exact .float htext
  | .str s, h => .str (h (.str s) (by simp [Expr.leaves]))
  | .ref name args, h => by
    rw [Expr.leaves, List.forall_mem_cons] at h
    exact .ref h.1 (Expr.wellFormed_of_argLeaves args h.2)
  | .binary op lhs rhs, h => by
    rw [Expr.leaves, List.forall_mem_append] at h
    exact .binary (Expr.wellFormed_of_leaves lhs h.1) (Expr.wellFormed_of_leaves rhs h.2)

theorem Expr.wellFormed_of_argLeaves :
    ∀ args : List Expr, (∀ l ∈ Expr.argLeaves args, l.Written) → ∀ arg ∈ args, arg.WellFormed
  | [], _ => by simp
  | arg :: args, h => by
    rw [Expr.argLeaves, List.forall_mem_append] at h
    exact List.forall_mem_cons.mpr
      ⟨Expr.wellFormed_of_leaves arg h.1, Expr.wellFormed_of_argLeaves args h.2⟩

end

mutual

theorem IsKeywordStmt.wellFormed {ts rest : List Token} {stmt : Stmt} :
    IsKeywordStmt ts stmt rest → (∀ l ∈ stmt.leaves, l.Written) → stmt.WellFormed
  | .print _ _ _, hl => .print (Expr.wellFormed_of_leaves _ hl)
  | .assign _ _ _ hdistinct _ h _, hl => by
    simp only [Stmt.leaves, Block.leaves, List.forall_mem_cons, List.forall_mem_append,
      List.forall_mem_map] at hl
    obtain ⟨hname, hparams, hbody, htail⟩ := hl
    exact .assign hname (List.forall_mem_map.mpr hparams) hdistinct (h.wellFormed hbody)
      (Expr.wellFormed_of_leaves _ htail)

theorem IsBlock.wellFormed {ts rest : List Token} {body : List Stmt} {tail : Expr} :
    IsBlock ts body tail rest → (∀ l ∈ Stmt.bodyLeaves body, l.Written) →
      ∀ stmt ∈ body, stmt.WellFormed
  | .tail _ _, _ => by simp
  | .expr _ _ hrest, hl => by
    rw [Stmt.bodyLeaves, List.forall_mem_append] at hl
    exact List.forall_mem_cons.mpr
      ⟨.expr (Expr.wellFormed_of_leaves _ hl.1), hrest.wellFormed hl.2⟩
  | .stmt h hrest, hl => by
    rw [Stmt.bodyLeaves, List.forall_mem_append] at hl
    exact List.forall_mem_cons.mpr ⟨h.wellFormed hl.1, hrest.wellFormed hl.2⟩

end

theorem IsStmt.wellFormed {ts rest : List Token} {stmt : Stmt} (h : IsStmt ts stmt rest)
    (hl : ∀ l ∈ stmt.leaves, l.Written) : stmt.WellFormed := by
  cases h with
  | keyword h => exact h.wellFormed hl
  | ended _ _ => exact .expr (Expr.wellFormed_of_leaves _ hl)
  | bare _ _ => exact .expr (Expr.wellFormed_of_leaves _ hl)

/-- **A program that is read can be written down.** -/
theorem IsProgram.wellFormed {ts : List Token} {p : Program} (h : IsProgram ts p)
    (hl : ∀ l ∈ p.leaves, l.Written) : p.WellFormed := by
  induction h with
  | nil => intro stmt hstmt; cases hstmt
  | cons h _ ih =>
    rw [Program.leaves, Stmt.bodyLeaves, List.forall_mem_append] at hl
    exact List.forall_mem_cons.mpr ⟨h.wellFormed hl.1, ih hl.2⟩

/-! ### The size of integers

Integers are not negative because digits have no sign. That they are not too large is a matter of
the tree, in which they are words of 64 bits. -/

mutual

theorem Expr.lt_of_mem_leaves {value : Int} : ∀ e : Expr, .int value ∈ e.leaves → value < 2 ^ 63
  | .int n, h => by
    obtain rfl : value = n.toInt := by simpa [Expr.leaves] using h
    exact n.toInt_lt
  | .float x, h => by simp [Expr.leaves] at h
  | .str s, h => by simp [Expr.leaves] at h
  | .ref name args, h => Expr.lt_of_mem_argLeaves args (by simpa [Expr.leaves] using h)
  | .binary op lhs rhs, h => by
    rw [Expr.leaves, List.mem_append] at h
    exact h.elim (Expr.lt_of_mem_leaves lhs) (Expr.lt_of_mem_leaves rhs)

theorem Expr.lt_of_mem_argLeaves {value : Int} :
    ∀ args : List Expr, .int value ∈ Expr.argLeaves args → value < 2 ^ 63
  | [], h => by simp [Expr.argLeaves] at h
  | arg :: args, h => by
    rw [Expr.argLeaves, List.mem_append] at h
    exact h.elim (Expr.lt_of_mem_leaves arg) (Expr.lt_of_mem_argLeaves args)

end

mutual

theorem Stmt.lt_of_mem_leaves {value : Int} :
    ∀ stmt : Stmt, .int value ∈ stmt.leaves → value < 2 ^ 63
  | .assign name block, h => Block.lt_of_mem_leaves block (by simpa [Stmt.leaves] using h)
  | .print e, h => e.lt_of_mem_leaves h
  | .expr e, h => e.lt_of_mem_leaves h

theorem Block.lt_of_mem_leaves {value : Int} :
    ∀ b : BlockOf Stmt, .int value ∈ Block.leaves b → value < 2 ^ 63
  | ⟨params, body, tail⟩, h => by
    rw [Block.leaves, List.mem_append, List.mem_append] at h
    rcases h with h | h | h
    · simp at h
    · exact Stmt.lt_of_mem_bodyLeaves body h
    · exact tail.lt_of_mem_leaves h

theorem Stmt.lt_of_mem_bodyLeaves {value : Int} :
    ∀ body : List Stmt, .int value ∈ Stmt.bodyLeaves body → value < 2 ^ 63
  | [], h => by simp [Stmt.bodyLeaves] at h
  | stmt :: body, h => by
    rw [Stmt.bodyLeaves, List.mem_append] at h
    exact h.elim (Stmt.lt_of_mem_leaves stmt) (Stmt.lt_of_mem_bodyLeaves body)

end

/-! ### Blocks and their parameters -/

mutual

/-- The blocks of a statement: the one that it binds, and those nested in it. -/
def Stmt.blocks : Stmt → List Block
  | .assign _ block => block :: Block.nested block
  | .print _ => []
  | .expr _ => []

/-- The blocks in the body of a block. -/
def Block.nested : BlockOf Stmt → List Block
  | ⟨_, body, _⟩ => Stmt.bodyBlocks body

/-- The blocks of statements. -/
def Stmt.bodyBlocks : List Stmt → List Block
  | [] => []
  | stmt :: body => stmt.blocks ++ Stmt.bodyBlocks body

end

/-- The blocks of a program, at every level of nesting. -/
def Program.blocks (p : Program) : List Block :=
  Stmt.bodyBlocks p

theorem Stmt.bodyBlocks_eq (body : List Stmt) : bodyBlocks body = body.flatMap blocks := by
  induction body with
  | nil => rfl
  | cons stmt body ih => rw [bodyBlocks, ih, List.flatMap_cons]

theorem Stmt.WellFormed.nodup_params {stmt : Stmt} (h : stmt.WellFormed) :
    ∀ b ∈ stmt.blocks, b.params.Nodup := by
  induction h with
  | assign _ _ hdistinct _ _ ih =>
    intro b hb
    rw [blocks, Block.nested, bodyBlocks_eq] at hb
    rcases List.mem_cons.mp hb with rfl | hb
    · exact hdistinct
    · obtain ⟨stmt, hstmt, hb⟩ := List.mem_flatMap.mp hb
      exact ih stmt hstmt b hb
  | print _ => simp [blocks]
  | expr _ => simp [blocks]

theorem Program.WellFormed.nodup_params {p : Program} (h : p.WellFormed) :
    ∀ b ∈ p.blocks, b.params.Nodup := by
  intro b hb
  rw [blocks, Stmt.bodyBlocks_eq] at hb
  obtain ⟨stmt, hstmt, hb⟩ := List.mem_flatMap.mp hb
  exact (h stmt hstmt).nodup_params b hb

/-- What is bound in a new scope is found there. -/
theorem Scopes.lookup_push_of_find? (a : Scopes) (outer : Scope.Index) {bindings : Bindings}
    {name : String} {b : Binding} (h : bindings.find? name = some b) :
    (a.push outer bindings).2.lookup a.size name = .ok (some b) := by
  have hframe : (a.push outer bindings).2.frames[a.size]? = some ⟨bindings, some outer⟩ := by
    rw [getElem?_push, if_pos rfl]
  rw [lookup, lookupWithin, hframe]
  simp only [h]

/-- Whoever calls the block with as many arguments as it expects, and however they are evaluated:
the block runs in a new scope, in which each parameter stands for its own argument. -/
def Block.BindsOwnArguments (b : Block) : Prop :=
  ∀ (eval : ExprEval Eval) (caller scope : Scope.Index) (name : String) (args : List Expr)
    (bs : List Binding) (s s₁ : State), args.length = b.arity →
    Expr.argumentsWith eval caller args s = .ok bs s₁ →
    ∃ bindings, Expr.invokeWith eval caller name ⟨b, scope⟩ args s =
        Eval.inNewScope scope bindings (fun inner => Block.runWith eval inner b) s₁ ∧
      List.Forall₂ (fun param arg =>
        (s₁.scopes.push scope bindings).2.lookup s₁.scopes.size param = .ok (some arg)) b.params bs

/-- **Distinct parameters** are bound each to its own argument. -/
theorem Block.bindsOwnArguments {b : Block} (h : b.params.Nodup) : b.BindsOwnArguments := by
  intro eval caller scope name args bs s s₁ hlength hargs
  refine ⟨_, Expr.invokeWith_of_arguments_eq_ok hlength hargs, ?_⟩
  have hparams : b.params.length = bs.length :=
    hlength.symm.trans (Expr.length_of_argumentsWith_eq_ok hargs).symm
  have hnames : (b.params.zip bs).map Prod.fst = b.params :=
    List.map_fst_zip (Nat.le_of_eq hparams)
  refine List.forall₂_iff_zip.mpr ⟨hparams, fun {param arg} hmem => ?_⟩
  refine s₁.scopes.lookup_push_of_find? scope ?_
  exact Bindings.find?_ofList_of_mem (hnames.symm ▸ h) hmem

namespace Program

/-- **Programs that are read are well formed.** All names in them are written like names and are not
reserved, texts lack one of the quotes, and no integer is negative. The leaves are the tokens of the
text in their order, so that every literal is the value of its own token. The parameters of a block
are distinct, so that a call binds each of them to its own argument. -/
theorem parse_wellFormed {text : String} {limit : Nat} {p : Program}
    (h : parse text limit = .ok p) :
    p.WellFormed ∧ p.leaves = tokenLeaves (Stream.ofText text).tokens ∧
      (∀ value, Leaf.int value ∈ p.leaves → 0 ≤ value ∧ value < 2 ^ 63) ∧
      ∀ b ∈ p.blocks, b.params.Nodup ∧ b.BindsOwnArguments := by
  obtain ⟨hp, -⟩ := isProgram_of_statements (Stream.eofFree_ofText text) h
  have hleaves : p.leaves = tokenLeaves (Stream.ofText text).tokens := hp.leaves_eq
  have hwritten : ∀ l ∈ p.leaves, l.Written :=
    hleaves ▸ written_of_tokenLeaves fun _ => Stream.spelled_of_mem_scan
  have hwf : p.WellFormed := hp.wellFormed hwritten
  refine ⟨hwf, hleaves, fun value hvalue => ?_, fun b hb => ?_⟩
  · exact ⟨hwritten _ hvalue, Stmt.lt_of_mem_bodyLeaves p hvalue⟩
  · have hdistinct := hwf.nodup_params b hb
    exact ⟨hdistinct, Block.bindsOwnArguments hdistinct⟩

/-- A block in a block, both of which have a parameter `b`, an integer with leading zeros, and a text
with a quote in it. -/
def nestedBlocks : String := "let f a b = let g b = a + 007; print \x22it's\x22; g b; f 1 2"

/-- What `nestedBlocks` is read as. -/
def nestedBlocksTree : Program :=
  [.assign "f" ⟨["a", "b"],
      [.assign "g" ⟨["b"], [], .binary .add (.ref "a" []) (.int 7)⟩, .print (.str "it's")],
      .ref "g" [.ref "b" []]⟩,
    .expr (.ref "f" [.int 1, .int 2])]

theorem parse_nestedBlocks_wellFormed :
    parse nestedBlocks 4 = .ok nestedBlocksTree ∧ nestedBlocksTree.WellFormed ∧
      (nestedBlocksTree.leaves = tokenLeaves (Stream.ofText nestedBlocks).tokens ∧
        nestedBlocksTree.leaves = [.name "f", .name "a", .name "b", .name "g", .name "b", .name "a",
          .int 7, .str "it's", .name "g", .name "b", .name "f", .int 1, .int 2]) ∧
      (∀ value, Leaf.int value ∈ nestedBlocksTree.leaves → 0 ≤ value ∧ value < 2 ^ 63) ∧
      nestedBlocksTree.blocks.map BlockOf.params = [["a", "b"], ["b"]] ∧
      ∀ b ∈ nestedBlocksTree.blocks, b.params.Nodup ∧ b.BindsOwnArguments := by
  have hparse : parse nestedBlocks 4 = .ok nestedBlocksTree := by
    with_unfolding_all rfl
  obtain ⟨hwf, hleaves, hints, hblocks⟩ := parse_wellFormed hparse
  exact ⟨hparse, hwf, ⟨hleaves, rfl⟩, hints, rfl, hblocks⟩

end Program

end Blockscript
