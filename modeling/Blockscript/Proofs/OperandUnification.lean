import Blockscript.Proofs.OperatorTrees

/-!
# Unification of operands

An operator takes two integers, two texts if it is `+`, and otherwise numbers, of which one is a
floating-point number and makes the other one. All else is an error. This table is for one operator.
Here it is lifted to trees of operators: what type the value of a tree has, and which error there is
if it has none, can be told from the leaves and the operators of the tree alone.

A text anywhere makes the tree fail, unless everything in it is a text and every operator is `+`. A
floating-point number anywhere makes the value one. If several operators of a tree are applied to
operands that do not unify, the first one is reported, in the order in which they are applied.

## Main definitions

* `Op.unify` : the table of the operators.
* `OpTree.ty?` : the type of the value of a tree.
* `OpTree.Numeric`, `OpTree.Textual` : the two kinds of trees that have a value.
* `OpTree.applications`, `OpTree.firstMismatch?` : the operators in the order in which they are
  applied, and the first one whose operands do not unify.

## Main results

* `OpTree.value_spec` : a tree has a value of its type, or it fails with its first mismatch.
* `OpTree.ty?_eq_int_iff`, `OpTree.ty?_numeric_iff`, `OpTree.ty?_eq_str_iff` : types by leaves.
* `OpTree.value_of_textual` : the value of a tree of texts.
* `Expr.evalWithin_unification` : the headline, for expressions.
-/

namespace Blockscript

open Value (Ty)

/-! ### One operator -/

/-- The type of what an operator gives for operands of the given types, if these unify. -/
def Op.unify : Op → Ty → Ty → Option Ty
  | _, .int, .int => some .int
  | _, .int, .float => some .float
  | _, .float, .int => some .float
  | _, .float, .float => some .float
  | .add, .str, .str => some .str
  | _, _, _ => none

/-- The types of numbers. -/
def Value.Ty.Numeric (ty : Ty) : Prop :=
  ty = .int ∨ ty = .float

namespace Op

variable {op : Op} {a b : Ty}

theorem unify_eq_int_iff : op.unify a b = some .int ↔ a = .int ∧ b = .int := by
  cases op <;> cases a <;> cases b <;> simp [unify]

theorem unify_eq_str_iff : op.unify a b = some .str ↔ (a = .str ∧ b = .str) ∧ op = .add := by
  cases op <;> cases a <;> cases b <;> simp [unify]

theorem unify_numeric_iff :
    (∃ ty, op.unify a b = some ty ∧ ty.Numeric) ↔ a.Numeric ∧ b.Numeric := by
  cases op <;> cases a <;> cases b <;> simp [unify, Ty.Numeric]

/-- Operands that unify give a value of the type in the table. -/
theorem apply_of_unify_eq_some {v w : Value} {ty : Ty} (h : op.unify v.ty w.ty = some ty) :
    ∃ u, op.apply v w = .ok u ∧ u.ty = ty := by
  cases op <;> cases v <;> cases w <;> simp_all [unify, apply, Value.ty]

/-- Operands that do not unify are an error that names the operator and the two types. -/
theorem apply_of_unify_eq_none {v w : Value} (h : op.unify v.ty w.ty = none) :
    op.apply v w = .error ⟨op, v.ty, w.ty⟩ := by
  cases op <;> cases v <;> cases w <;> simp_all [unify, apply, Value.ty]

end Op

namespace OpTree

/-! ### Types and mismatches of trees -/

section

variable {α : Type}

/-- The operators of a tree. -/
def ops : OpTree α → List Op
  | .leaf _ => []
  | .node op lhs rhs => lhs.ops ++ rhs.ops ++ [op]

/-- The operators of a tree with their operands, in the order in which they are applied. -/
def applications : OpTree α → List (Op × OpTree α × OpTree α)
  | .leaf _ => []
  | .node op lhs rhs => lhs.applications ++ rhs.applications ++ [(op, lhs, rhs)]

end

/-- The type of the value of a tree, if all operands in it unify. -/
def ty? : OpTree Value → Option Ty
  | .leaf v => some v.ty
  | .node op lhs rhs => do
    let a ← lhs.ty?
    let b ← rhs.ty?
    op.unify a b

/-- The mismatch of an operator whose operands have types that do not unify. -/
def mismatch? (application : Op × OpTree Value × OpTree Value) : Option TypeMismatch := do
  let (op, lhs, rhs) := application
  let a ← lhs.ty?
  let b ← rhs.ty?
  if op.unify a b = none then some ⟨op, a, b⟩ else none

/-- The first mismatch in a tree, in the order in which its operators are applied. -/
def firstMismatch? (t : OpTree Value) : Option TypeMismatch :=
  t.applications.findSome? mismatch?

/-- All leaves are numbers. -/
def Numeric (t : OpTree Value) : Prop :=
  ∀ v ∈ t.leaves, v.ty.Numeric

/-- All leaves are texts, and they are joined. -/
def Textual (t : OpTree Value) : Prop :=
  (∀ v ∈ t.leaves, v.ty = .str) ∧ ∀ op ∈ t.ops, op = .add

variable {t lhs rhs : OpTree Value} {op : Op} {ty : Ty}

theorem ty?_node_eq_some_iff :
    (node op lhs rhs).ty? = some ty ↔
      ∃ a b, lhs.ty? = some a ∧ rhs.ty? = some b ∧ op.unify a b = some ty := by
  simp [ty?, Option.bind_eq_some_iff]

/-- The operators in the operands come first. -/
theorem firstMismatch?_node :
    (node op lhs rhs).firstMismatch? =
      (lhs.firstMismatch?.or rhs.firstMismatch?).or (mismatch? (op, lhs, rhs)) := by
  simp [firstMismatch?, applications, Option.or_assoc]

/-- **A tree has a value of its type, or it fails with its first mismatch.** -/
theorem value_spec (t : OpTree Value) :
    (∃ v, t.value = .ok v ∧ t.ty? = some v.ty ∧ t.firstMismatch? = none) ∨
      ∃ e, t.value = .error e ∧ t.ty? = none ∧ t.firstMismatch? = some e := by
  induction t with
  | leaf v => exact .inl ⟨v, rfl, rfl, rfl⟩
  | node op lhs rhs ihl ihr =>
    rw [firstMismatch?_node, value, ty?, mismatch?]
    rcases ihl with ⟨v, hv, htyl, hfirstl⟩ | ⟨e, he, htyl, hfirstl⟩
    · rcases ihr with ⟨w, hw, htyr, hfirstr⟩ | ⟨e, he, htyr, hfirstr⟩
      · rw [hv, hw, htyl, htyr, hfirstl, hfirstr]
        -- Both operands have values. Now the table decides.
        cases htable : op.unify v.ty w.ty with
        | some ty =>
          obtain ⟨u, hu, rfl⟩ := Op.apply_of_unify_eq_some htable
          exact .inl ⟨u, hu, htable, by simp [htable]⟩
        | none =>
          exact .inr ⟨_, Op.apply_of_unify_eq_none htable, htable, by simp [htable]⟩
      · rw [hv, he, htyl, htyr, hfirstl, hfirstr]
        exact .inr ⟨e, rfl, rfl, rfl⟩
    · rw [he, htyl, hfirstl]
      exact .inr ⟨e, rfl, rfl, rfl⟩

theorem exists_value_iff : (∃ v, t.value = .ok v ∧ v.ty = ty) ↔ t.ty? = some ty := by
  rcases t.value_spec with ⟨v, hv, hty, -⟩ | ⟨e, he, hty, -⟩
  · simp [hv, hty]
  · simp [he, hty]

theorem value_eq_error_iff {e : TypeMismatch} : t.value = .error e ↔ t.firstMismatch? = some e := by
  rcases t.value_spec with ⟨v, hv, -, hfirst⟩ | ⟨e', he', -, hfirst⟩
  · simp [hv, hfirst]
  · simp [he', hfirst]

/-! ### Types by leaves -/

theorem ty?_eq_int_iff : t.ty? = some .int ↔ ∀ v ∈ t.leaves, v.ty = .int := by
  induction t with
  | leaf v => simp [ty?, leaves]
  | node op lhs rhs ihl ihr =>
    rw [ty?_node_eq_some_iff, leaves, List.forall_mem_append, ← ihl, ← ihr]
    simp only [Op.unify_eq_int_iff]
    constructor
    · rintro ⟨a, b, ha, hb, rfl, rfl⟩
      exact ⟨ha, hb⟩
    · rintro ⟨ha, hb⟩
      exact ⟨_, _, ha, hb, rfl, rfl⟩

/-- A tree is of a numeric type if its leaves are. -/
theorem ty?_numeric_iff : (∃ ty, t.ty? = some ty ∧ ty.Numeric) ↔ t.Numeric := by
  unfold Numeric
  induction t with
  | leaf v => simp [ty?, leaves]
  | node op lhs rhs ihl ihr =>
    rw [leaves, List.forall_mem_append, ← ihl, ← ihr]
    constructor
    · rintro ⟨ty, hty, hnum⟩
      obtain ⟨a, b, ha, hb, hab⟩ := ty?_node_eq_some_iff.mp hty
      obtain ⟨hanum, hbnum⟩ := Op.unify_numeric_iff.mp ⟨ty, hab, hnum⟩
      exact ⟨⟨a, ha, hanum⟩, b, hb, hbnum⟩
    · rintro ⟨⟨a, ha, hanum⟩, b, hb, hbnum⟩
      have hunify : ∃ ty, op.unify a b = some ty ∧ ty.Numeric :=
        Op.unify_numeric_iff.mpr ⟨hanum, hbnum⟩
      obtain ⟨ty, hab, hnum⟩ := hunify
      exact ⟨ty, ty?_node_eq_some_iff.mpr ⟨a, b, ha, hb, hab⟩, hnum⟩

theorem ty?_eq_str_iff : t.ty? = some .str ↔ t.Textual := by
  unfold Textual
  induction t with
  | leaf v => simp [ty?, leaves, ops]
  | node op lhs rhs ihl ihr =>
    rw [ty?_node_eq_some_iff, leaves, ops]
    simp only [Op.unify_eq_str_iff, List.forall_mem_append, List.forall_mem_singleton]
    constructor
    · rintro ⟨a, b, ha, hb, ⟨rfl, rfl⟩, rfl⟩
      obtain ⟨hleaves, hops⟩ := ihl.mp ha
      obtain ⟨hleaves', hops'⟩ := ihr.mp hb
      exact ⟨⟨hleaves, hleaves'⟩, ⟨hops, hops'⟩, rfl⟩
    · rintro ⟨⟨hleaves, hleaves'⟩, ⟨hops, hops'⟩, rfl⟩
      exact ⟨_, _, ihl.mpr ⟨hleaves, hops⟩, ihr.mpr ⟨hleaves', hops'⟩, ⟨rfl, rfl⟩, rfl⟩

theorem ty?_eq_float_iff :
    t.ty? = some .float ↔ t.Numeric ∧ ∃ v ∈ t.leaves, v.ty = .float := by
  constructor
  · intro hty
    have hnum : t.Numeric := ty?_numeric_iff.mp ⟨.float, hty, .inr rfl⟩
    refine ⟨hnum, ?_⟩
    -- Otherwise all leaves are integers, and so is the value.
    by_contra hnone
    have hint : t.ty? = some .int := ty?_eq_int_iff.mpr fun v hv =>
      (hnum v hv).resolve_right fun hfloat => hnone ⟨v, hv, hfloat⟩
    rw [hty] at hint
    cases hint
  · rintro ⟨hnum, v, hv, hfloat⟩
    obtain ⟨ty, hty, rfl | rfl⟩ := ty?_numeric_iff.mpr hnum
    · have hint := ty?_eq_int_iff.mp hty v hv
      rw [hfloat] at hint
      cases hint
    · exact hty

/-- A tree of texts has them joined from left to right as its value, whatever its shape. -/
theorem value_of_textual (h : t.Textual) :
    t.value = .ok (.str (String.join (t.leaves.map Value.text))) := by
  obtain ⟨hleaves, hops⟩ := h
  induction t with
  | leaf v =>
    obtain hv := hleaves v (List.mem_singleton_self v)
    cases v with
    | str s => simp [value, leaves, Value.text]
    | int n => cases hv
    | float x => cases hv
  | node op lhs rhs ihl ihr =>
    rw [leaves, List.forall_mem_append] at hleaves
    rw [ops, List.forall_mem_append, List.forall_mem_append, List.forall_mem_singleton] at hops
    obtain ⟨⟨hopsl, hopsr⟩, rfl⟩ := hops
    rw [value, ihl hleaves.1 hopsl, ihr hleaves.2 hopsr, leaves, List.map_append,
      String.join_append]
    rfl

theorem value_eq_str_iff {w : String} :
    t.value = .ok (.str w) ↔ t.Textual ∧ w = String.join (t.leaves.map Value.text) := by
  constructor
  · intro hvalue
    have htext : t.Textual := ty?_eq_str_iff.mp (exists_value_iff.mp ⟨_, hvalue, rfl⟩)
    rw [value_of_textual htext] at hvalue
    cases hvalue
    exact ⟨htext, rfl⟩
  · rintro ⟨htext, rfl⟩
    exact value_of_textual htext

/-- The trees that have a value. -/
theorem exists_value_eq_ok_iff : (∃ v, t.value = .ok v) ↔ t.Numeric ∨ t.Textual := by
  rw [← ty?_numeric_iff, ← ty?_eq_str_iff]
  constructor
  · rintro ⟨v, hv⟩
    have hty := exists_value_iff.mp ⟨v, hv, rfl⟩
    cases v with
    | int n => exact .inl ⟨.int, hty, .inl rfl⟩
    | float x => exact .inl ⟨.float, hty, .inr rfl⟩
    | str s => exact .inr hty
  · rintro (⟨ty, hty, -⟩ | hty)
    · obtain ⟨v, hv, -⟩ := exists_value_iff.mpr hty
      exact ⟨v, hv⟩
    · obtain ⟨v, hv, -⟩ := exists_value_iff.mpr hty
      exact ⟨v, hv⟩

end OpTree

/-! ### Expressions -/

namespace Expr

/-- **Operands unify over whole expressions.** Let `e` be a tree of operators over literals and
names that stand for values in the scope `i`, and let its evaluation not reach the limit.

* It has a value just if all leaves are numbers, or all are texts and all operators are `+`.
* The value is an integer if all leaves are, a floating-point number if all leaves are numbers and
  one is a floating-point number, and else the leaves joined from left to right.
* If it has no value, the error is that of the first operator, in the order in which they are
  applied, whose operands do not unify; it names the operator and the types of the operands.

Evaluating it does nothing else. -/
theorem evalWithin_unification {s : State} {i : Scope.Index} {e : Expr} {t : OpTree Value}
    (h : e.values? s.scopes i = some t) {limit depth : Nat}
    (hended : ∀ l s', evalWithin (m := Eval) limit depth i e s ≠ .error (.recursionLimit l) s') :
    ((∃ v s', evalWithin (m := Eval) limit depth i e s = .ok v s') ↔ t.Numeric ∨ t.Textual) ∧
    ((∃ v, evalWithin (m := Eval) limit depth i e s = .ok v s ∧ v.ty = .int) ↔
      ∀ v ∈ t.leaves, v.ty = .int) ∧
    ((∃ v, evalWithin (m := Eval) limit depth i e s = .ok v s ∧ v.ty = .float) ↔
      t.Numeric ∧ ∃ v ∈ t.leaves, v.ty = .float) ∧
    (∀ w, evalWithin (m := Eval) limit depth i e s = .ok (.str w) s ↔
      t.Textual ∧ w = String.join (t.leaves.map Value.text)) ∧
    (∀ err s', evalWithin (m := Eval) limit depth i e s = .error err s' ↔
      (∃ m, t.firstMismatch? = some m ∧ err = .mismatch m) ∧ s' = s) := by
  rw [evalWithin_of_values? h hended]
  simp only [Eval.ofValue_eq_ok_iff, Eval.ofValue_eq_error_iff, and_true, exists_eq_right]
  refine ⟨OpTree.exists_value_eq_ok_iff, ?_, ?_, fun w => ?_, fun err s' => ?_⟩
  · rw [OpTree.exists_value_iff, OpTree.ty?_eq_int_iff]
  · rw [OpTree.exists_value_iff, OpTree.ty?_eq_float_iff]
  · exact OpTree.value_eq_str_iff
  · simp only [OpTree.value_eq_error_iff]

/-- A root that binds `name` to a text. -/
def nameRoot : State :=
  (Program.freshRuns [(1, [.assign "name" ⟨[], [], .str "x"⟩])]).2

/-- `(1 + 2.5) * ('a' + name) - (name - 1)`. -/
def mixedTypes : Expr :=
  .binary .sub
    (.binary .mul (.binary .add (.int 1) (.float 2.5)) (.binary .add (.str "a") (.ref "name" [])))
    (.binary .sub (.ref "name" []) (.int 1))

/-- The values in it. -/
def mixedTypesTree : OpTree Value :=
  .node .sub
    (.node .mul (.node .add (.leaf (.int 1)) (.leaf (.float 2.5)))
      (.node .add (.leaf (.str "a")) (.leaf (.str "x"))))
    (.node .sub (.leaf (.str "x")) (.leaf (.int 1)))

/-- Two operators cannot be applied. The product comes first; its operands are a sum that has been
promoted, and texts that have been joined. -/
theorem evalWithin_mixedTypes_unification :
    mixedTypes.values? nameRoot.scopes .root = some mixedTypesTree ∧
      (∀ l s', evalWithin (m := Eval) 4 4 .root mixedTypes nameRoot ≠
        .error (.recursionLimit l) s') ∧
      mixedTypesTree.applications.filterMap OpTree.mismatch? =
        [⟨.mul, .float, .str⟩, ⟨.sub, .str, .int⟩] ∧
      evalWithin (m := Eval) 4 4 .root mixedTypes nameRoot =
        .error (.mismatch ⟨.mul, .float, .str⟩) nameRoot := by
  have hvalues : mixedTypes.values? nameRoot.scopes .root = some mixedTypesTree := rfl
  have hended : ∀ l s', evalWithin (m := Eval) 4 4 .root mixedTypes nameRoot ≠
      .error (.recursionLimit l) s' := by
    intro l s' hcut
    have hends : Result.outcome (evalWithin (m := Eval) 4 4 .root mixedTypes nameRoot) =
        .error (.mismatch ⟨.mul, .float, .str⟩) := rfl
    rw [hcut] at hends
    cases hends
  obtain ⟨-, -, -, -, herror⟩ := evalWithin_unification hvalues hended
  exact ⟨hvalues, hended, rfl, (herror _ _).mpr ⟨⟨_, rfl, rfl⟩, rfl⟩⟩

end Expr

end Blockscript
