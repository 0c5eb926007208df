import Blockscript.Proofs.ExprParsing

/-!
# Phrases in other surroundings

A rule of the grammar looks at the token after its phrase, but only to see of which sort it is. So a
phrase stays a phrase of its rule when other tokens follow it, as long as the next one is of a sort
that the rule permits there: after an expression that must not be a token with which an expression
begins, unless such a token followed before.

## Main definitions

* `IsPhrase` : a rule reads these tokens in front of the rest, and reads them still if other tokens
  follow.

## Main results

* `IsSum.isPhrase`, `IsOperand.isPhrase`, `IsAtom.isPhrase` : expressions, in which no semicolon
  stands.
* `IsKeywordStmt.isPhrase`, `IsBlock.isPhrase`, `IsStmt.isPhrase` : statements and blocks.
-/

namespace Blockscript

/-- The rule reads the tokens of `ts` in front of `rest`, all of which are `allowed`, and reads them
still if tokens follow the first of which is `permitted`. -/
def IsPhrase (rule : List Token → List Token → Prop) (allowed : Token → Prop)
    (permitted : Token.Kind → Prop) (ts rest : List Token) : Prop :=
  ∃ phrase, ts = phrase ++ rest ∧ (∀ t ∈ phrase, allowed t) ∧
    ∀ rest', permitted (nextKind rest') → rule (phrase ++ rest') rest'

/-- No semicolon. -/
def Token.Inner (t : Token) : Prop :=
  t.kind ≠ .semicolon

/-- A kind that begins an expression only if the kind `old` does. -/
def Token.Kind.BeginsNoMore (old kind : Token.Kind) : Prop :=
  kind.beginsExpr = true → old.beginsExpr = true

section

variable {ts us rest : List Token} {t c : Token}
  {rule rule' rule'' : List Token → List Token → Prop} {allowed : Token → Prop}
  {permitted permitted' : Token.Kind → Prop}

theorem IsPhrase.imp (h : IsPhrase rule allowed permitted ts rest)
    (hrule : ∀ {ts rest}, rule ts rest → rule' ts rest)
    (hpermitted : ∀ {kind}, permitted' kind → permitted kind) :
    IsPhrase rule' allowed permitted' ts rest := by
  obtain ⟨phrase, hts, hallowed, hphrase⟩ := h
  exact ⟨phrase, hts, hallowed, fun rest' hrest' => hrule (hphrase rest' (hpermitted hrest'))⟩

theorem IsPhrase.unrestricted (h : IsPhrase rule allowed permitted ts rest) :
    IsPhrase rule (fun _ => True) permitted ts rest := by
  obtain ⟨phrase, hts, -, hphrase⟩ := h
  exact ⟨phrase, hts, by simp, hphrase⟩

/-- A token alone. -/
theorem isPhrase_token (ht : allowed t) (hrule : ∀ rest, rule (t :: rest) rest) :
    IsPhrase rule allowed permitted (t :: rest) rest :=
  ⟨[t], rfl, by simpa using ht, fun rest' _ => hrule rest'⟩

/-- Tokens in front of a phrase. -/
theorem IsPhrase.appendLeft (h : IsPhrase rule allowed permitted us rest) (pre : List Token)
    (hpre : ∀ t ∈ pre, allowed t) (hrule : ∀ {us rest}, rule us rest → rule' (pre ++ us) rest) :
    IsPhrase rule' allowed permitted (pre ++ us) rest := by
  obtain ⟨phrase, rfl, hallowed, hphrase⟩ := h
  refine ⟨pre ++ phrase, by simp, ?_, fun rest' hrest' => ?_⟩
  · simpa [or_imp, forall_and] using ⟨hpre, hallowed⟩
  · rw [List.append_assoc]
    exact hrule (hphrase rest' hrest')

/-- A phrase with the token after it, which the rule permits. Then anything may follow. -/
theorem IsPhrase.closed (h : IsPhrase rule allowed permitted ts (c :: rest))
    (hpermitted : permitted c.kind) (hc : allowed c) :
    IsPhrase (fun ts rest => rule ts (c :: rest)) allowed permitted' ts rest := by
  obtain ⟨phrase, rfl, hallowed, hphrase⟩ := h
  refine ⟨phrase ++ [c], by simp, ?_, fun rest' _ => ?_⟩
  · simpa [or_imp, forall_and] using ⟨hallowed, hc⟩
  · rw [List.append_assoc]
    exact hphrase (c :: rest') hpermitted

/-- A phrase after which anything may follow, and another one. -/
theorem IsPhrase.append (h : IsPhrase rule allowed (fun _ => True) ts us)
    (h' : IsPhrase rule' allowed permitted us rest)
    (hrule : ∀ {ts us rest}, rule ts us → rule' us rest → rule'' ts rest) :
    IsPhrase rule'' allowed permitted ts rest := by
  obtain ⟨phrase, rfl, hallowed, hphrase⟩ := h
  obtain ⟨phrase', rfl, hallowed', hphrase'⟩ := h'
  refine ⟨phrase ++ phrase', by simp, ?_, fun rest' hrest' => ?_⟩
  · simpa [or_imp, forall_and] using ⟨hallowed, hallowed'⟩
  · rw [List.append_assoc]
    exact hrule (hphrase _ trivial) (hphrase' rest' hrest')

end

/-! ### Expressions -/

section

variable {ts rest : List Token} {t : Token} {e : Expr} {args : List Expr}

theorem IsLiteral.inner (h : IsLiteral t e) : t.Inner := by
  intro hkind
  have hbegins := h.beginsExpr
  rw [hkind] at hbegins
  cases hbegins

theorem Token.inner_of_kind {kind : Token.Kind} (h : t.kind = kind) (hne : kind ≠ .semicolon) :
    t.Inner := by
  rwa [Token.Inner, h]

theorem Token.Kind.beginsNoMore_of_eq_false {old kind : Token.Kind} (h : kind.beginsExpr = false) :
    old.BeginsNoMore kind := by
  intro hbegins
  rw [h] at hbegins
  cases hbegins

mutual

/-- A sum, whatever follows that begins an expression only if what followed before did. -/
theorem IsSum.isPhrase {ts rest : List Token} {e : Expr} :
    IsSum ts e rest → IsPhrase (IsSum · e ·) Token.Inner (nextKind rest).BeginsNoMore ts rest
  | .product h => h.isPhrase.imp .product id
  | .join hlhs hkind hop hrhs =>
    (hlhs.isPhrase.closed id (Token.inner_of_kind hkind (by simp))).append hrhs.isPhrase
      fun h h' => .join h hkind hop h'

theorem IsProduct.isPhrase {ts rest : List Token} {e : Expr} :
    IsProduct ts e rest →
      IsPhrase (IsProduct · e ·) Token.Inner (nextKind rest).BeginsNoMore ts rest
  | .operand h => h.isPhrase.imp .operand id
  | .join hlhs hkind hrhs =>
    (hlhs.isPhrase.closed id (Token.inner_of_kind hkind (by simp))).append hrhs.isPhrase
      fun h h' => .join h hkind h'

theorem IsOperand.isPhrase {ts rest : List Token} {e : Expr} :
    IsOperand ts e rest →
      IsPhrase (IsOperand · e ·) Token.Inner (nextKind rest).BeginsNoMore ts rest
  | .literal h => isPhrase_token h.inner fun _ => .literal h
  | .ref hkind hargs hnext => by
    obtain ⟨phrase, rfl, hallowed, hphrase⟩ := hargs.isPhrase
    refine ⟨_ :: phrase, rfl, ?_, fun rest' hrest' => ?_⟩
    · exact List.forall_mem_cons.mpr ⟨Token.inner_of_kind hkind (by simp), hallowed⟩
    · refine .ref hkind (hphrase rest' trivial) ?_
      -- No expression could begin after the arguments before, so none can now.
      rw [← Bool.not_eq_true]
      intro hbegins
      rw [hrest' hbegins] at hnext
      cases hnext
  | .paren hopen h hclose =>
    (h.isPhrase.closed id (Token.inner_of_kind hclose (by simp))).appendLeft [_]
      (by simpa using Token.inner_of_kind hopen (by simp)) fun h => .paren hopen h hclose

/-- An atom, whatever follows. -/
theorem IsAtom.isPhrase {ts rest : List Token} {e : Expr} :
    IsAtom ts e rest → IsPhrase (IsAtom · e ·) Token.Inner (fun _ => True) ts rest
  | .name hkind => isPhrase_token (Token.inner_of_kind hkind (by simp)) fun _ => .name hkind
  | .literal h => isPhrase_token h.inner fun _ => .literal h
  | .paren hopen h hclose =>
    (h.isPhrase.closed id (Token.inner_of_kind hclose (by simp))).appendLeft [_]
      (by simpa using Token.inner_of_kind hopen (by simp)) fun h => .paren hopen h hclose

theorem IsAtoms.isPhrase {ts rest : List Token} {args : List Expr} :
    IsAtoms ts args rest → IsPhrase (IsAtoms · args ·) Token.Inner (fun _ => True) ts rest
  | .nil => ⟨[], rfl, by simp, fun _ _ => .nil⟩
  | .cons harg hargs => harg.isPhrase.append hargs.isPhrase .cons

end

/-- An expression at any power. -/
theorem IsExpr.isPhrase {power : Int} (h : IsExpr power ts e rest) :
    IsPhrase (IsExpr power · e ·) Token.Inner (nextKind rest).BeginsNoMore ts rest := by
  rw [IsExpr] at h ⊢
  split_ifs at h ⊢
  · exact h.isPhrase
  · exact h.isPhrase
  · exact h.isPhrase

end

/-! ### Statements and blocks -/

theorem Token.Kind.beginsExpr_eq_false {kind : Token.Kind} (h : kind.beginsStmt = false) :
    kind.beginsExpr = false := by
  rw [← Bool.not_eq_true] at h ⊢
  exact fun hbegins => h (beginsStmt_of_beginsExpr hbegins)

theorem nextKind_append_of_takes {phrase rest : List Token} (h : Takes (phrase ++ rest) rest)
    (rest' : List Token) : nextKind (phrase ++ rest') = nextKind (phrase ++ rest) := by
  cases phrase with
  | nil => exact absurd h.length_lt (Nat.lt_irrefl _)
  | cons t phrase => rfl

mutual

/-- A statement that a keyword opens, whatever follows its semicolon. -/
theorem IsKeywordStmt.isPhrase {ts rest : List Token} {stmt : Stmt} :
    IsKeywordStmt ts stmt rest →
      IsPhrase (IsKeywordStmt · stmt ·) (fun _ => True) (fun _ => True) ts rest
  | .print hkind h hsemi =>
    (h.isPhrase.unrestricted.closed id trivial).appendLeft [_] (by simp)
      fun h => .print hkind h hsemi
  | @IsKeywordStmt.assign us rest params t name q d body tail hkind hname hparams hdistinct hequals
      h hsemi => by
    have hblock : IsPhrase (fun us rest => IsBlock us body tail (d :: rest)) (fun _ => True)
        (fun _ => True) us rest := h.isPhrase.closed (by rw [hsemi]; rfl) trivial
    have hheader : t :: name :: (params ++ q :: us) = (t :: name :: (params ++ [q])) ++ us := by
      simp
    rw [hheader]
    refine hblock.appendLeft _ (by simp) fun h => ?_
    rw [List.cons_append, List.cons_append, List.append_assoc]
    exact .assign hkind hname hparams hdistinct hequals h hsemi

/-- A block, whatever follows that begins no statement. -/
theorem IsBlock.isPhrase {ts rest : List Token} {body : List Stmt} {tail : Expr} :
    IsBlock ts body tail rest →
      IsPhrase (IsBlock · body tail ·) (fun _ => True) (·.beginsStmt = false) ts rest
  | .tail h _ => by
    obtain ⟨phrase, rfl, -, hphrase⟩ := h.isPhrase
    refine ⟨phrase, rfl, by simp, fun rest' hrest' => .tail (hphrase rest' ?_) hrest'⟩
    exact Token.Kind.beginsNoMore_of_eq_false (Token.Kind.beginsExpr_eq_false hrest')
  | .expr h hnext hrest => by
    obtain ⟨phrase', rfl, -, hphrase'⟩ := hrest.isPhrase
    obtain ⟨phrase, rfl, -, hphrase⟩ := h.isPhrase
    refine ⟨phrase ++ phrase', by simp, by simp, fun rest' hrest' => ?_⟩
    -- The block after the expression is not empty, so it begins as before.
    have hkind := nextKind_append_of_takes hrest.takes rest'
    rw [List.append_assoc]
    refine .expr (hphrase _ ?_) (hkind ▸ hnext) (hphrase' rest' hrest')
    rw [hkind]
    exact id
  | .stmt h hrest => h.isPhrase.append hrest.isPhrase .stmt

end

/-- A statement of a program, before the same kind of token or at the end. -/
theorem IsStmt.isPhrase {ts rest : List Token} {stmt : Stmt} (h : IsStmt ts stmt rest) :
    IsPhrase (IsStmt · stmt ·) (fun _ => True) (fun kind => kind = nextKind rest ∨ kind = .eof)
      ts rest := by
  cases h with
  | keyword h => exact h.isPhrase.imp .keyword fun _ => trivial
  | ended h hsemi =>
    exact (h.isPhrase.unrestricted.closed id trivial).imp (fun h => .ended h hsemi) id
  | bare h hnext =>
    obtain ⟨phrase, rfl, -, hphrase⟩ := h.isPhrase
    refine ⟨phrase, rfl, by simp, ?_⟩
    rintro rest' (hkind | hkind)
    · exact .bare (hphrase rest' (by rw [hkind]; exact id)) (hkind ▸ hnext)
    · refine .bare (hphrase rest' ?_) (by simp [hkind])
      exact Token.Kind.beginsNoMore_of_eq_false (by rw [hkind]; rfl)

end Blockscript
