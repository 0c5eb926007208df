import Blockscript.Proofs.ExprParsing
import Blockscript.Stmt.Parser

/-!
# The parser accepts exactly the grammar

From expressions to statements, blocks and whole programs. As for expressions, each parser is
compared with its rule in both directions, and the number of tokens bounds the nesting: a block
takes a level of its own, so with `n` levels the blocks of fewer than `n` tokens are read.

## Main definitions

* `Block.Sound`, `Block.Complete` : a parser reads nothing but, and all of, what the rule for blocks
  derives.
* `Program.Derives` : the tokens of a text are a program.

## Main results

* `Stmt.sound_parserWithin`, `Stmt.complete_parserWithin` : the parser for statements.
* `IsProgram.unique` : a sequence of tokens is at most one program.
* `Program.parse_eq_ok_iff_derives` : a text is read as a program, when enough nesting is permitted,
  if and only if its tokens are that program.
-/

namespace Blockscript

variable {expr : Parser Expr} {block : List String → Parser Block} {n : Nat} {t : Token}
  {ts us rest : List Token} {s r : Stream} {stmt : Stmt} {body : List Stmt} {tail : Expr}

/-! ### Soundness of blocks -/

/-- What the parser reads is a block with the given parameters. -/
def Block.Sound (block : List String → Parser Block) : Prop :=
  ∀ {params : List String} {s r : Stream} {b : Block}, (block params).run s = .ok (b, r) →
    ∃ body tail, b = ⟨params, body, tail⟩ ∧ IsBlock s.tokens body tail r.tokens ∧
      r.ending = s.ending

namespace Stmt

/-- The parameters are names up to an equals sign, distinct from each other and from those that
were read before. -/
theorem tokens_of_parameters {params params' : List String}
    (h : parameters params s = .ok (params', r)) (hparams : params.Nodup) :
    ∃ names q, s.tokens = names ++ q :: r.tokens ∧ (∀ name ∈ names, name.kind = .identifier) ∧
      q.kind = .equals ∧ params' = params ++ names.map Token.text ∧ params'.Nodup ∧
      r.ending = s.ending := by
  fun_induction parameters params s with
  | case1 => cases h
  | case2 => cases h
  | case3 params s t r' hn hk hmem hlt ih =>
    have hne (name : String) (hname : name ∈ params) : name ≠ t.text := fun heq =>
      hmem (heq ▸ hname)
    have hnodup : (params ++ [t.text]).Nodup :=
      List.nodup_append.mpr ⟨hparams, by simp, by simpa using hne⟩
    obtain ⟨names, q, htokens, hnames, hq, rfl, hnodup', hend⟩ := ih h hnodup
    obtain ⟨htokens', hend'⟩ := Stream.tokens_of_next hn (by simp [hk])
    refine ⟨t :: names, q, by simp [htokens', htokens], by simpa [hk] using hnames, hq, by simp,
      hnodup', hend.trans hend'⟩
  | case4 params s t r' hn hk he =>
    cases h
    obtain ⟨htokens, hend⟩ := Stream.tokens_of_next hn (by simp [he])
    exact ⟨[], t, htokens, by simp, he, by simp, hparams, hend⟩
  | case5 => cases h

theorem isKeywordStmt_of_printRest (hexpr : Expr.Sound expr 0) (ht : t.kind = .keyword .printWord)
    (h : printRest expr s = .ok (stmt, r)) :
    IsKeywordStmt (t :: s.tokens) stmt r.tokens ∧ r.ending = s.ending := by
  obtain ⟨⟨e, s₁⟩, hrun, h⟩ := bind_eq_ok.mp h
  obtain ⟨s₂, hexpect, h⟩ := bind_eq_ok.mp h
  cases h
  obtain ⟨hsum, -, hend⟩ := hexpr hrun
  obtain ⟨d, hd, htokens, hend'⟩ := Stream.tokens_of_expect hexpect (by decide)
  exact ⟨.print ht (htokens ▸ hsum) hd, hend'.trans hend⟩

theorem isKeywordStmt_of_assignRest (hblock : Block.Sound block) (ht : t.kind = .keyword .letWord)
    (h : assignRest block s = .ok (stmt, r)) :
    IsKeywordStmt (t :: s.tokens) stmt r.tokens ∧ r.ending = s.ending := by
  obtain ⟨⟨name, s₁⟩, hn, h⟩ := bind_eq_ok.mp h
  dsimp only at h
  split at h
  · next hname =>
    obtain ⟨⟨params, s₂⟩, hparams, h⟩ := bind_eq_ok.mp h
    obtain ⟨⟨b, s₃⟩, hrun, h⟩ := bind_eq_ok.mp h
    obtain ⟨s₄, hexpect, h⟩ := bind_eq_ok.mp h
    cases h
    dsimp only at hrun hexpect
    obtain ⟨htokens₁, hend₁⟩ := Stream.tokens_of_next hn (by simp [hname])
    obtain ⟨names, q, htokens₂, hnames, hq, rfl, hnodup, hend₂⟩ :=
      tokens_of_parameters hparams List.nodup_nil
    obtain ⟨body, tail, rfl, hisBlock, hend₃⟩ := hblock hrun
    obtain ⟨d, hd, htokens₄, hend₄⟩ := Stream.tokens_of_expect hexpect (by decide)
    rw [htokens₁, htokens₂]
    rw [htokens₄] at hisBlock
    exact ⟨.assign ht hname hnames hnodup hq hisBlock hd,
      ((hend₄.trans hend₃).trans hend₂).trans hend₁⟩
  · cases h

theorem isKeywordStmt_of_keywordRest (hexpr : Expr.Sound expr 0) (hblock : Block.Sound block)
    {word : Keyword} (ht : t.kind = .keyword word)
    (h : keywordRest expr block word s = .ok (stmt, r)) :
    IsKeywordStmt (t :: s.tokens) stmt r.tokens ∧ r.ending = s.ending := by
  cases word with
  | printWord => exact isKeywordStmt_of_printRest hexpr ht h
  | letWord => exact isKeywordStmt_of_assignRest hblock ht h

end Stmt

namespace Block

theorem isBlock_of_parts (hexpr : Expr.Sound expr 0) (hblock : Block.Sound block)
    (h : parts expr block s = .ok ((body, tail), r)) :
    IsBlock s.tokens body tail r.tokens ∧ r.ending = s.ending := by
  fun_induction parts expr block s generalizing body tail r with
  | case1 => cases h
  | case2 => cases h
  | case3 => cases h
  | case4 s t r' hn word hk stmt r'' hs hle hlt body tail s' hp ih =>
    cases h
    obtain ⟨htokens, hend⟩ := Stream.tokens_of_next hn (by simp [hk])
    obtain ⟨hstmt, hend'⟩ := Stmt.isKeywordStmt_of_keywordRest hexpr hblock hk hs
    obtain ⟨hrest, hend''⟩ := ih hp
    rw [htokens]
    exact ⟨.stmt hstmt hrest, (hend''.trans hend').trans hend⟩
  | case5 => cases h
  | case6 => cases h
  | case7 => cases h
  | case8 s t r' hn e s' he hlt follow r'' hf hstmt body tail s'' hp hk hb ih =>
    cases h
    obtain ⟨hsum, -, hend⟩ := hexpr he
    obtain ⟨hrest, hend'⟩ := ih hp
    exact ⟨.expr hsum (Stream.kind_of_next hf ▸ hstmt) hrest, hend'.trans hend⟩
  | case9 s t r' hn e s' he hlt follow r'' hf hstmt hk hb =>
    cases h
    obtain ⟨hsum, -, hend⟩ := hexpr he
    exact ⟨.tail hsum (by rw [← Stream.kind_of_next hf]; simpa using hstmt), hend⟩
  | case10 => cases h

theorem sound_parserWithin (limit depth : Nat) : Sound (parserWithin limit depth) := by
  induction depth with
  | zero => intro params s r b h; cases h
  | succ depth ih =>
    intro params s r b h
    obtain ⟨⟨⟨body, tail⟩, s'⟩, hp, h⟩ := bind_eq_ok.mp h
    cases h
    exact ⟨body, tail, rfl, isBlock_of_parts (Expr.sound_parserWithin limit depth 0) ih hp⟩

end Block

/-! ### Soundness of statements and programs -/

namespace Stmt

theorem isStmt_of_bareRest (hexpr : Expr.Sound expr 0) (h : bareRest expr s = .ok (stmt, r)) :
    IsStmt s.tokens stmt r.tokens ∧ r.ending = s.ending := by
  obtain ⟨⟨e, s₁⟩, hrun, h⟩ := bind_eq_ok.mp h
  obtain ⟨⟨follow, s₂⟩, hn, h⟩ := bind_eq_ok.mp h
  obtain ⟨hsum, -, hend⟩ := hexpr hrun
  dsimp only at hn h
  split at h
  · next hsemi =>
    cases h
    obtain ⟨htokens, hend'⟩ := Stream.tokens_of_next hn (by simp [hsemi])
    rw [htokens] at hsum
    exact ⟨.ended hsum hsemi, hend'.trans hend⟩
  · next hsemi =>
    cases h
    exact ⟨.bare hsum (Stream.kind_of_next hn ▸ hsemi), hend⟩

theorem isStmt_of_run (hexpr : Expr.Sound expr 0) (hblock : Block.Sound block)
    (h : (parser expr block).run s = .ok (stmt, r)) :
    IsStmt s.tokens stmt r.tokens ∧ r.ending = s.ending := by
  obtain ⟨⟨t, s₁⟩, hn, h⟩ := bind_eq_ok.mp h
  dsimp only at h
  split at h
  · next word hk =>
    obtain ⟨htokens, hend⟩ := Stream.tokens_of_next hn (by simp [hk])
    obtain ⟨hstmt, hend'⟩ := isKeywordStmt_of_keywordRest hexpr hblock hk h
    rw [htokens]
    exact ⟨.keyword hstmt, hend'.trans hend⟩
  · split at h
    · exact isStmt_of_bareRest hexpr h
    · cases h

/-- **The statement parser is sound.** -/
theorem sound_parserWithin {limit : Nat} (h : (parserWithin limit).run s = .ok (stmt, r)) :
    IsStmt s.tokens stmt r.tokens ∧ r.ending = s.ending :=
  isStmt_of_run (Expr.sound_parserWithin limit limit 0) (Block.sound_parserWithin limit limit) h

end Stmt

/-- The end of the text is not among the tokens before it. -/
def Stream.EofFree (s : Stream) : Prop :=
  ∀ t ∈ s.tokens, t.kind ≠ .eof

theorem Stream.EofFree.ends (hs : s.EofFree) (hn : s.next = .ok (t, r)) (ht : t.kind = .eof) :
    s.tokens = [] ∧ ∃ size, s.ending = .eof size := by
  rw [next] at hn
  split at hn
  · next t' ts htokens =>
    cases hn
    exact absurd ht (hs t (by simp [htokens]))
  · next htokens =>
    split at hn
    · next size hend => exact ⟨htokens, size, hend⟩
    · cases hn

theorem Program.isProgram_of_statements {limit : Nat} {p : Program} (hs : s.EofFree)
    (h : statements (Stmt.parserWithin limit) s = .ok p) :
    IsProgram s.tokens p ∧ ∃ size, s.ending = .eof size := by
  fun_induction statements (Stmt.parserWithin limit) s generalizing p with
  | case1 => cases h
  | case2 s t r hn ht =>
    cases h
    obtain ⟨htokens, hend⟩ := hs.ends hn ht
    rw [htokens]
    exact ⟨.nil, hend⟩
  | case3 => cases h
  | case4 => cases h
  | case5 s t r hn ht first s' hrun hlt rest hstmts ih =>
    cases h
    obtain ⟨hstmt, hend⟩ := Stmt.sound_parserWithin hrun
    -- What is left is a last part of the tokens, so the end is not among it either.
    obtain ⟨phrase, -, htokens⟩ := hstmt.takes
    have hs' : s'.EofFree := fun t ht => hs t (by simp [htokens, ht])
    obtain ⟨hrest, hsize⟩ := ih hs' hstmts
    exact ⟨.cons hstmt hrest, hend ▸ hsize⟩

/-! ### Completeness of blocks -/

/-- The parser reads every block of fewer than `n` tokens whose tail cannot be continued. -/
def Block.Complete (block : List String → Parser Block) (n : Nat) : Prop :=
  ∀ (params : List String) {ts rest : List Token} {body : List Stmt} {tail : Expr} {s : Stream},
    IsBlock ts body tail rest → (nextKind rest).leftPower ≤ 0 → ts.length < rest.length + n →
    s.Holds ts → ∃ r, (block params).run s = .ok (⟨params, body, tail⟩, r) ∧ r.Holds rest

theorem Token.Kind.leftPower_le_zero_of_beginsStmt {kind : Token.Kind}
    (h : kind.beginsStmt = true) : kind.leftPower ≤ 0 := by
  cases kind with
  | operator op => cases h
  | _ => simp [leftPower]

namespace Stmt

theorem parameters_of_tokens (params : List String) {names : List Token} {q : Token}
    (hnames : ∀ name ∈ names, name.kind = .identifier) (hq : q.kind = .equals)
    (hnodup : (params ++ names.map Token.text).Nodup) (hs : s.Holds (names ++ q :: us)) :
    ∃ r, parameters params s = .ok (params ++ names.map Token.text, r) ∧ r.Holds us := by
  induction names generalizing params s with
  | nil =>
    obtain ⟨r, hn, hr⟩ := hs.next_cons
    refine ⟨r, ?_, hr⟩
    rw [parameters]
    split <;> simp_all
  | cons name names ih =>
    obtain ⟨r, hn, hr⟩ := hs.next_cons
    have hname : name.kind = .identifier := hnames name (by simp)
    have hmem : name.text ∉ params := fun h =>
      (List.nodup_append.mp hnodup).2.2 _ h _ (by simp) rfl
    rw [List.map_cons, List.append_cons] at hnodup ⊢
    obtain ⟨r', heq, hr'⟩ := ih _ (fun t ht => hnames t (by simp [ht])) hnodup hr
    refine ⟨r', ?_, hr'⟩
    rw [parameters]
    split <;> simp_all

/-- A statement that a keyword opens: the keyword is the next token, and the rest of the statement
follows it. -/
theorem keywordRest_of_isKeywordStmt (hexpr : Expr.Complete expr 0 n)
    (hblock : Block.Complete block n) (h : IsKeywordStmt ts stmt rest)
    (hlen : ts.length ≤ rest.length + n) (hs : s.Holds ts) :
    ∃ t word r r', s.next = .ok (t, r) ∧ t.kind = .keyword word ∧
      keywordRest expr block word r = .ok (stmt, r') ∧ r'.Holds rest := by
  cases h with
  | @print us _ t d e hkind hsum hd =>
    obtain ⟨r₁, hn, hr₁⟩ := hs.next_cons
    have hlen' : us.length ≤ (d :: rest).length + n := by
      rw [List.length_cons] at hlen ⊢
      omega
    have hnext := leftPower_nextKind_of_closes (.inr hd) rest
    obtain ⟨r₂, hrun, hr₂⟩ := Expr.Complete.run_of_isSum hexpr hsum hnext hlen' hr₁
    obtain ⟨r₃, hexpect, hr₃⟩ := hr₂.expect_cons hd (.delimiterRequired .printWord)
    refine ⟨t, .printWord, r₁, r₃, hn, hkind, ?_, hr₃⟩
    simp [keywordRest, printRest, hrun, hexpect, bind, Except.bind]
  | @assign us _ names t name q d body tail hkind hname hnames hnodup hq hbody hd =>
    obtain ⟨r₁, hn₁, hr₁⟩ := hs.next_cons
    obtain ⟨r₂, hn₂, hr₂⟩ := hr₁.next_cons
    obtain ⟨r₃, hparams, hr₃⟩ := parameters_of_tokens [] hnames hq hnodup hr₂
    have hlen' : us.length < (d :: rest).length + n := by
      simp only [List.length_cons, List.length_append] at hlen ⊢
      omega
    have hnext := leftPower_nextKind_of_closes (.inr hd) rest
    obtain ⟨r₄, hrun, hr₄⟩ := hblock (names.map Token.text) hbody hnext hlen' hr₃
    obtain ⟨r₅, hexpect, hr₅⟩ := hr₄.expect_cons hd (.delimiterRequired .letWord)
    refine ⟨t, .letWord, r₁, r₅, hn₁, hkind, ?_, hr₅⟩
    rw [List.nil_append] at hparams
    simp [keywordRest, assignRest, hn₂, hname, hparams, hrun, hexpect, bind, Except.bind]

end Stmt

namespace Block

theorem parts_stmt {word : Keyword} {r' s' : Stream} (hn : s.next = .ok (t, r))
    (hkind : t.kind = .keyword word) (hstmt : Stmt.keywordRest expr block word r = .ok (stmt, r'))
    (hrest : parts expr block r' = .ok ((body, tail), s')) :
    parts expr block s = .ok ((stmt :: body, tail), s') := by
  rw [parts]
  split
  · simp_all
  · next hn' =>
    rw [hn] at hn'
    cases hn'
    split
    · next word' hk =>
      obtain rfl : word = word' := by simpa [hkind] using hk
      split <;> simp_all
    · simp_all

theorem parts_expr {e : Expr} {r' s' : Stream} {follow : Token} (hn : s.next = .ok (t, r))
    (hkind : t.kind.beginsExpr = true) (hrun : expr.run s = .ok (e, r'))
    (hf : r'.next = .ok (follow, s')) :
    parts expr block s = if follow.kind.beginsStmt then
        (parts expr block r').map fun p => ((.expr e :: p.1.1, p.1.2), p.2)
      else .ok (([], e), r') := by
  rw [parts]
  split
  · simp_all
  · next hn' =>
    rw [hn] at hn'
    cases hn'
    split
    · next word hk => rw [hk] at hkind; cases hkind
    · rw [if_pos hkind]
      split
      · simp_all
      · next hrun' =>
        rw [hrun] at hrun'
        cases hrun'
        simp only [hf]
        cases parts expr block r' <;> rfl

theorem parts_of_isBlock (hexpr : Expr.Complete expr 0 n) (hblock : Block.Complete block n)
    {rest : List Token} {tail : Expr} (hrest : (nextKind rest).leftPower ≤ 0) :
    ∀ {ts : List Token} {body : List Stmt} {s : Stream}, IsBlock ts body tail rest →
      ts.length ≤ rest.length + n → s.Holds ts →
      ∃ r, parts expr block s = .ok ((body, tail), r) ∧ r.Holds rest
  | ts, _, s, .tail hsum hnext, hlen, hs => by
    obtain ⟨t, r₁, hn, hkind⟩ := hs.exists_next
    obtain ⟨r, hrun, hr⟩ := Expr.Complete.run_of_isSum hexpr hsum hrest hlen hs
    obtain ⟨follow, r₂, hf, hfollow⟩ := hr.exists_next
    refine ⟨r, ?_, hr⟩
    rw [parts_expr hn (hkind ▸ hsum.beginsExpr) hrun hf, hfollow, hnext]
    rfl
  | ts, _, s, .expr hsum hnext hblk, hlen, hs => by
    have hlen' := hblk.takes.length_lt
    obtain ⟨t, r₁, hn, hkind⟩ := hs.exists_next
    obtain ⟨r, hrun, hr⟩ := Expr.Complete.run_of_isSum hexpr hsum
      (Token.Kind.leftPower_le_zero_of_beginsStmt hnext) (by omega) hs
    obtain ⟨follow, r₂, hf, hfollow⟩ := hr.exists_next
    have hlen'' := hsum.takes.length_lt
    obtain ⟨r', hparts, hr'⟩ := parts_of_isBlock hexpr hblock hrest hblk (by omega) hr
    refine ⟨r', ?_, hr'⟩
    rw [parts_expr hn (hkind ▸ hsum.beginsExpr) hrun hf, hfollow, if_pos hnext, hparts]
    rfl
  | ts, _, s, .stmt hstmt hblk, hlen, hs => by
    have hlen' := hblk.takes.length_lt
    obtain ⟨t, word, r₁, r, hn, hkind, hkeyword, hr⟩ :=
      Stmt.keywordRest_of_isKeywordStmt hexpr hblock hstmt (by omega) hs
    have hlen'' := hstmt.takes.length_lt
    obtain ⟨r', hparts, hr'⟩ := parts_of_isBlock hexpr hblock hrest hblk (by omega) hr
    exact ⟨r', parts_stmt hn hkind hkeyword hparts, hr'⟩

theorem complete_parserWithin (limit depth : Nat) :
    Complete (parserWithin limit depth) depth := by
  induction depth with
  | zero =>
    intro params ts rest body tail s h _ hlen _
    have := h.takes.length_lt
    omega
  | succ depth ih =>
    intro params ts rest body tail s h hrest hlen hs
    obtain ⟨r, hparts, hr⟩ :=
      parts_of_isBlock (Expr.complete_parserWithin limit depth 0) ih hrest h (by omega) hs
    refine ⟨r, ?_, hr⟩
    simp [parserWithin, hparts, bind, Except.bind]

end Block

/-! ### Completeness of statements and programs -/

namespace Stmt

theorem parser_bare (hn : s.next = .ok (t, r)) (hkind : t.kind.beginsExpr = true) :
    (parser expr block).run s = bareRest expr s := by
  simp only [parser, hn, bind, Except.bind]
  split
  · next word hk =>
    rw [hk] at hkind
    cases hkind
  · rw [if_pos hkind]

theorem bareRest_eq {e : Expr} {r' : Stream} (hrun : expr.run s = .ok (e, r))
    (hn : r.next = .ok (t, r')) :
    bareRest expr s = .ok (.expr e, if t.kind = .semicolon then r' else r) := by
  simp only [bareRest, hrun, hn, bind, Except.bind]
  split <;> rfl

theorem parser_of_isStmt (hexpr : Expr.Complete expr 0 n) (hblock : Block.Complete block n)
    (h : IsStmt ts stmt rest) (hrest : (nextKind rest).leftPower ≤ 0)
    (hlen : ts.length ≤ rest.length + n) (hs : s.Holds ts) :
    ∃ r, (parser expr block).run s = .ok (stmt, r) ∧ r.Holds rest := by
  obtain ⟨t, r₀, hn, hkind⟩ := hs.exists_next
  cases h with
  | keyword h =>
    obtain ⟨t, word, r₁, r, hn, hkind, hkeyword, hr⟩ :=
      keywordRest_of_isKeywordStmt hexpr hblock h hlen hs
    refine ⟨r, ?_, hr⟩
    simp [parser, hn, hkind, hkeyword, bind, Except.bind]
  | @ended _ d e hsum hd =>
    have hsemi := leftPower_nextKind_of_closes (.inr hd) rest
    obtain ⟨r, hrun, hr⟩ := Expr.Complete.run_of_isSum hexpr hsum hsemi
      (by rw [List.length_cons]; omega) hs
    obtain ⟨r', hf, hr'⟩ := hr.next_cons
    refine ⟨r', ?_, hr'⟩
    rw [parser_bare hn (hkind ▸ hsum.beginsExpr), bareRest_eq hrun hf, if_pos hd]
  | @bare _ e hsum hnext =>
    obtain ⟨r, hrun, hr⟩ := Expr.Complete.run_of_isSum hexpr hsum hrest hlen hs
    obtain ⟨follow, r', hf, hfollow⟩ := hr.exists_next
    refine ⟨r, ?_, hr⟩
    rw [parser_bare hn (hkind ▸ hsum.beginsExpr), bareRest_eq hrun hf, if_neg (hfollow ▸ hnext)]

/-- **The statement parser is complete.** With `limit` levels of nesting it reads every statement of
at most `limit` tokens that cannot be continued. -/
theorem complete_parserWithin {limit : Nat} (h : IsStmt ts stmt rest)
    (hrest : (nextKind rest).leftPower ≤ 0) (hlen : ts.length ≤ rest.length + limit)
    (hs : s.Holds ts) : ∃ r, (parserWithin limit).run s = .ok (stmt, r) ∧ r.Holds rest :=
  parser_of_isStmt (Expr.complete_parserWithin limit limit 0)
    (Block.complete_parserWithin limit limit) h hrest hlen hs

end Stmt

theorem IsProgram.leftPower_le {p : Program} (h : IsProgram ts p) :
    (nextKind ts).leftPower ≤ 0 := by
  rcases h.beginsStmt_or_nil with h | rfl
  · exact Token.Kind.leftPower_le_zero_of_beginsStmt h
  · decide

theorem Program.statements_of_isProgram {limit : Nat} {p : Program} (h : IsProgram ts p)
    (hlen : ts.length ≤ limit) (hs : s.Holds ts) :
    statements (Stmt.parserWithin limit) s = .ok p := by
  induction h generalizing s with
  | nil =>
    obtain ⟨t, r, hn, hkind⟩ := hs.exists_next
    rw [statements, hn]
    exact if_pos hkind
  | @cons ts us stmt rest hstmt hrest ih =>
    obtain ⟨t, r₀, hn, hkind⟩ := hs.exists_next
    have hlt := hstmt.takes.length_lt
    have hlen' : ts.length ≤ us.length + limit := by omega
    obtain ⟨r, hrun, hr⟩ := Stmt.complete_parserWithin hstmt hrest.leftPower_le hlen' hs
    have heof : t.kind ≠ .eof := fun heof => by
      have := hstmt.beginsStmt
      rw [← hkind, heof] at this
      cases this
    rw [statements, hn]
    simp only [if_neg heof]
    split
    · simp_all
    · next hrun' =>
      rw [hrun] at hrun'
      cases hrun'
      rw [ih (by omega) hr]

/-! ### Programs as texts -/

/-- A sequence of tokens is at most one program. -/
theorem IsProgram.unique {p q : Program} (hp : IsProgram ts p) (hq : IsProgram ts q) : p = q := by
  -- Any stream of these tokens will do: the parser reads both programs from it.
  have hs : (⟨0, ts, .eof 0⟩ : Stream).Holds ts := ⟨rfl, 0, rfl⟩
  have heq := Program.statements_of_isProgram hp (Nat.le_refl _) hs
  rw [Program.statements_of_isProgram hq (Nat.le_refl _) hs] at heq
  cases heq
  rfl

theorem Lexeme.kind_ne_eof {c : Char} {cs text : List Char} {kind : Token.Kind}
    (h : read c cs = .token kind text) : kind ≠ .eof := by
  rw [read] at h
  split at h
  · rw [readNumber] at h
    split at h
    · cases h
      rw [number]
      split
      · split <;> simp
      · simp
    · cases h
  · split at h
    · rw [readWord] at h
      split at h
      · cases h
        rw [wordKind]
        split_ifs <;> simp
      · cases h
    · split at h
      · rw [readString] at h
        split at h <;> cases h
        simp
      · split at h
        · next hkind =>
          cases h
          rw [symbolKind?] at hkind
          rintro rfl
          split_ifs at hkind <;> cases hkind
        · cases h

theorem Token.kind_ne_eof_of_read {offset : Nat} {cs rest : List Char}
    (h : read offset cs = .token t rest) : t.kind ≠ .eof := by
  rw [read] at h
  split at h
  · cases h
  · split at h
    · next hread =>
      cases h
      exact Lexeme.kind_ne_eof hread
    · cases h

theorem Stream.kind_ne_eof_of_mem_scan {offset : Nat} {cs : List Char}
    (h : t ∈ (scan offset cs).1) : t.kind ≠ .eof := by
  fun_induction scan offset cs with
  | case1 offset cs t' rest hread hlt tokens ending hscan ih =>
    rcases List.mem_cons.mp h with rfl | h
    · exact Token.kind_ne_eof_of_read hread
    · exact ih (by rwa [hscan])
  | case2 => cases h
  | case3 => cases h

theorem Stream.eofFree_ofText (text : String) : (ofText text).EofFree :=
  fun _ => kind_ne_eof_of_mem_scan

/-- The tokens of a text are a program: no part of it is unreadable, and the grammar derives the
program from the tokens up to the end of the text. -/
def Program.Derives (text : String) (p : Program) : Prop :=
  (∃ size, (Stream.ofText text).ending = .eof size) ∧ IsProgram (Stream.ofText text).tokens p

/-- **The parser accepts exactly the grammar.**

When as many levels of nesting are permitted as the text has tokens, it is read as the program `p`
exactly if `p` is derived from its tokens. With fewer levels it may be refused, but what is read is
still derived. And the program is the only one: the three remarks leave no ambiguity. -/
theorem Program.parse_eq_ok_iff_derives (text : String) :
    (∀ limit ≥ (Stream.ofText text).size, ∀ p, parse text limit = .ok p ↔ Derives text p) ∧
      (∀ limit p, parse text limit = .ok p → Derives text p) ∧
      ∀ p q, Derives text p → Derives text q → p = q := by
  have hsound (limit : Nat) (p : Program) (h : parse text limit = .ok p) : Derives text p := by
    obtain ⟨hp, hend⟩ := isProgram_of_statements (Stream.eofFree_ofText text) h
    exact ⟨hend, hp⟩
  refine ⟨fun limit hlimit p => ⟨hsound limit p, fun ⟨hend, hp⟩ => ?_⟩, hsound,
    fun p q hp hq => hp.2.unique hq.2⟩
  exact statements_of_isProgram hp hlimit ⟨rfl, hend⟩

end Blockscript
