import Blockscript.Proofs.LexicalScope
import Blockscript.Session

/-!
# What a failed run leaves behind

A source text that is not a program changes nothing. A program that fails while it is evaluated
fails at one of its statements. It leaves the bindings as the statements before that one have made
them, together with what has been printed so far; and from then on the session goes on as if the
program had been cut off before the failing statement.

Two facts make this up. A statement that fails has bound nothing, however deep inside it the failure
lies (`Stmt.printed_of_execWith_error`). And what has been printed does not matter for what comes
later: two sessions whose roots agree have the same future, which is an instance of lexical scope
with the root as the set of scopes on which two arenas agree.

## Main definitions

* `Session.after` : the session that source texts leave when they are run one after another.
* `Session.transcript` : what each of several source texts returns, and what it prints.

## Main results

* `Program.exists_of_run_error` : a program fails at one of its statements.
* `Session.transcript_eq` : sessions whose roots agree have the same future.
* `Session.run_error_atomic` : the headline, for every session and every source text.
-/

namespace Blockscript

/-! ### The statement at which a program fails -/

namespace Program

variable {limit : Nat} {s s' : State} {e : EvalError}

theorem run_singleton (limit : Nat) (stmt : Stmt) :
    Program.run limit [stmt] = Stmt.execWith (Expr.evalWithin limit limit) .root stmt := by
  funext s
  simp only [Program.run, Program.runIn, List.foldlM_cons, List.foldlM_nil, Bind.bind,
    EStateM.bind]
  cases Stmt.execWith (m := Eval) (Expr.evalWithin limit limit) .root stmt s <;> rfl

/-- A program that fails does so at one of its statements, after those before it have been
executed. -/
theorem exists_of_run_error {program : Program} (h : program.run limit s = .error e s') :
    ∃ k stmt v sₖ, program[k]? = some stmt ∧ run limit (program.take k) s = .ok v sₖ ∧
      run limit [stmt] sₖ = .error e s' := by
  simp only [run_singleton]
  simp only [run, runIn] at h ⊢
  generalize (none : Option Value) = last at h ⊢
  induction program generalizing s last with
  | nil => cases h
  | cons stmt rest ih =>
    simp only [List.foldlM_cons, Bind.bind, EStateM.bind] at h
    cases hstmt : Stmt.execWith (m := Eval) (Expr.evalWithin limit limit) .root stmt s with
    | error e₁ s₁ =>
      rw [hstmt] at h
      exact ⟨0, stmt, last, s, rfl, rfl, hstmt.trans h⟩
    | ok v s₁ =>
      rw [hstmt] at h
      obtain ⟨k, stmt', v', sₖ, hk, htake, hfail⟩ := ih v h
      refine ⟨k + 1, stmt', v', sₖ, hk, ?_, hfail⟩
      simp only [List.take_succ_cons, List.foldlM_cons, Bind.bind, EStateM.bind, hstmt]
      exact htake

end Program

/-! ### Sessions one text after another -/

namespace Session

/-- The session that source texts leave when they are run one after another. -/
def after (session : Session) (sources : List String) : Session :=
  sources.foldl (fun session source => (session.run source).2) session

/-- What each of several source texts returns, and what it prints, when they are run one after
another. -/
def transcript (session : Session) :
    List String → List (Except Failure (Option Value) × List String)
  | [] => []
  | source :: rest =>
    let (result, next) := session.run source
    (result, next.state.output.toList.drop session.state.output.size) :: next.transcript rest

theorem exec_eq (session : Session) (program : Program) :
    session.exec program =
      ((Result.outcome (program.run session.limit session.state)).mapError .failed,
        { session with state := Result.state (program.run session.limit session.state) }) := by
  rw [exec]
  cases program.run session.limit session.state <;> rfl

/-- A run keeps the limit, and leaves the evaluator at rest. -/
theorem run_atRest {session : Session} (h : session.state.AtRest) (source : String) :
    (session.run source).2.limit = session.limit ∧ (session.run source).2.state.AtRest := by
  rw [run]
  cases Program.parse source session.limit with
  | error e => exact ⟨rfl, h⟩
  | ok program =>
    simp only [exec_eq]
    exact ⟨trivial, h.run session.limit program⟩

theorem after_atRest (limit : Nat) (sources : List String) :
    ((initial limit).after sources).limit = limit ∧
      ((initial limit).after sources).state.AtRest := by
  suffices key : ∀ session : Session, session.limit = limit → session.state.AtRest →
      (session.after sources).limit = limit ∧ (session.after sources).state.AtRest from
    key _ rfl State.atRest_initial
  induction sources with
  | nil => exact fun session hlimit hrest => ⟨hlimit, hrest⟩
  | cons source rest ih =>
    intro session hlimit hrest
    obtain ⟨hlimit', hrest'⟩ := run_atRest hrest source
    exact ih _ (hlimit'.trans hlimit) hrest'

/-! ### Sessions whose roots agree -/

/-- **Sessions whose roots agree have the same future.** What has been printed in them does not
matter. -/
theorem transcript_eq {s t : State} (h : (Pairing.on {.root} s t).Holds s t) (limit : Nat)
    (sources : List String) :
    transcript ⟨limit, s⟩ sources = transcript ⟨limit, t⟩ sources := by
  induction sources generalizing s t with
  | nil => rfl
  | cons source rest ih =>
    simp only [transcript, run]
    cases Program.parse source limit with
    | error e =>
      simp only [ih h]
      rw [List.drop_of_length_le (by simp), List.drop_of_length_le (by simp)]
    | ok program =>
      have hrel : Result.Related (Pairing.on {.root} s t).Holds Eq (program.run limit s)
          (program.run limit t) := pairing.runIn (w := Pairing.on {.root} s t) ⟨rfl, rfl⟩ _ _ s t h
      obtain ⟨texts, hs, ht⟩ := hrel.state.output
      simp only [exec_eq, hrel.outcome, ih hrel.state.restart, hs, ht]
      simp [Pairing.on]

/-! ### Failed runs -/

/-- In `session` the program fails with `e` at its statement of index `k`. The statements before
that one lead to the session `reached`, and the failure leaves the session `final`. -/
structure FailsAt (session : Session) (program : Program) (e : EvalError) (final : Session)
    (k : Nat) (reached : Session) : Prop where
  /-- The statements before the failing one are executed to their end. -/
  completed : ∃ value, session.exec (program.take k) = (.ok value, reached)
  /-- The next statement fails. What it prints until then comes after what had been printed, and is
  what it would print on its own. -/
  failing : ∃ stmt, program[k]? = some stmt ∧ reached.exec [stmt] = (.error (.failed e), final) ∧
    final.state.output.toList = reached.state.output.toList ++
      (Result.state (Program.run session.limit [stmt]
        { reached.state with output := #[] })).output.toList
  /-- All names are bound as the completed statements have bound them. -/
  bindings : final.state.scopes = reached.state.scopes
  /-- Only the root is alive. -/
  root : final.state.scopes.size = 1
  /-- If the levels of nesting are counted in the state, the counter goes back to zero. -/
  counter : ∀ rounds, session.limit ≤ rounds →
    Counted.run session.limit rounds program ⟨session.state, 0⟩ = .error e ⟨final.state, 0⟩
  /-- The session goes on as if only the completed statements had been run. -/
  future : ∀ later, final.transcript later = reached.transcript later

theorem exec_eq_failed_iff {session final : Session} {program : Program} {e : EvalError} :
    session.exec program = (.error (.failed e), final) ↔
      program.run session.limit session.state = .error e final.state ∧
        final.limit = session.limit := by
  obtain ⟨limit, s⟩ := session
  obtain ⟨limit', s'⟩ := final
  rw [exec]
  cases program.run limit s with
  | ok v t => simp
  | error e' t =>
    simp only [Prod.mk.injEq, Except.error.injEq, Failure.failed.injEq, Session.mk.injEq,
      EStateM.Result.error.injEq]
    constructor
    · rintro ⟨rfl, rfl, rfl⟩
      exact ⟨⟨rfl, rfl⟩, rfl⟩
    · rintro ⟨⟨rfl, rfl⟩, rfl⟩
      exact ⟨rfl, rfl, rfl⟩

/-- **One statement fails.** From then on the session goes on as if it had not been there; nothing
is left but what it has printed, which is what it would print on its own. -/
theorem of_exec_singleton_failed {reached final : Session} {stmt : Stmt} {e : EvalError}
    (hrest : reached.state.AtRest) (h : reached.exec [stmt] = (.error (.failed e), final)) :
    final.state.scopes = reached.state.scopes ∧
      final.state.output.toList = reached.state.output.toList ++
        (Result.state (Program.run reached.limit [stmt]
          { reached.state with output := #[] })).output.toList ∧
      ∀ later, final.transcript later = reached.transcript later := by
  obtain ⟨limit, s⟩ := reached
  obtain ⟨limit', s'⟩ := final
  obtain ⟨hrun, rfl⟩ := exec_eq_failed_iff.mp h
  have hagree := Scopes.AgreeOn.of_atRest hrest
  have hscopes : s'.scopes = s.scopes := by
    rw [Program.run_singleton] at hrun
    exact (Stmt.printed_of_execWith_error hrest.wellFormed hrest.wellFormed.size_pos hrun).scopes
  refine ⟨hscopes, ?_, fun later => ?_⟩
  · have hrel : Result.Related (Pairing.on {.root} s { s with output := #[] }).Holds Eq
        (Program.run limit' [stmt] s) (Program.run limit' [stmt] { s with output := #[] }) :=
      pairing.runIn (w := Pairing.on {.root} s { s with output := #[] }) ⟨rfl, rfl⟩ limit' [stmt]
        _ _ (Pairing.holds_of_agreeOn hrest.wellFormed hagree)
    rw [hrun] at hrel
    obtain ⟨texts, hleft, hright⟩ := hrel.state.output
    exact hleft.trans (congrArg (s.output.toList ++ ·) hright.symm)
  · refine transcript_eq (Pairing.holds_of_agreeOn ?_ ?_) limit' later
    · exact hscopes ▸ hrest.wellFormed
    · exact hscopes ▸ hagree

/-- A program that fails does so at one of its statements. -/
theorem exists_failsAt {session final : Session} (hrest : session.state.AtRest) {program : Program}
    {e : EvalError} (h : session.exec program = (.error (.failed e), final)) :
    ∃ k reached, session.FailsAt program e final k reached := by
  obtain ⟨hrun, hlimit⟩ := exec_eq_failed_iff.mp h
  obtain ⟨k, stmt, v, sₖ, hk, htake, hfail⟩ := Program.exists_of_run_error hrun
  have hreached : sₖ.AtRest := by
    have hstate := hrest.run session.limit (program.take k)
    rwa [htake] at hstate
  have hstmt : (⟨session.limit, sₖ⟩ : Session).exec [stmt] = (.error (.failed e), final) :=
    exec_eq_failed_iff.mpr ⟨hfail, hlimit⟩
  obtain ⟨hscopes, houtput, hfuture⟩ := of_exec_singleton_failed hreached hstmt
  refine ⟨k, ⟨session.limit, sₖ⟩, ⟨v, ?_⟩, ⟨stmt, hk, hstmt, houtput⟩, hscopes,
    hscopes ▸ hreached.size, fun rounds hrounds => ?_, hfuture⟩
  · rw [exec, htake]
  · have hcounted := Counted.run_of_atRest hrest hrounds program
    rw [hrun] at hcounted
    obtain ⟨t, ht, rfl, -⟩ := hcounted.of_error
    exact ht

/-- **A failed run leaves no trace but what it had completed.** In every session that source texts
can lead to, a text that is not a program changes nothing, and a text whose evaluation fails does so
at one of its statements, with all that `FailsAt` says. A text of the completed statements alone
would have led to the session that those have reached. -/
theorem run_error_atomic (limit : Nat) (before : List String) (source : String) :
    (∀ e final, ((initial limit).after before).run source = (.error (.malformed e), final) →
      final = (initial limit).after before) ∧
    ∀ e final, ((initial limit).after before).run source = (.error (.failed e), final) →
      ∃ program, Program.parse source limit = .ok program ∧
        ∃ k reached, ((initial limit).after before).FailsAt program e final k reached ∧
          ∀ cut, Program.parse cut limit = .ok (program.take k) →
            (((initial limit).after before).run cut).2 = reached := by
  obtain ⟨hlimit, hrest⟩ := after_atRest limit before
  generalize (initial limit).after before = session at hlimit hrest ⊢
  subst hlimit
  refine ⟨fun e final h => ?_, fun e final h => ?_⟩
  · rw [run] at h
    cases hparse : Program.parse source session.limit with
    | error e' =>
      rw [hparse] at h
      exact (Prod.mk.inj h).2.symm
    | ok program =>
      rw [hparse] at h
      simp only [exec] at h
      cases hrun : program.run session.limit session.state with
      | ok v s' => simp [hrun] at h
      | error e' s' => simp [hrun] at h
  · rw [run] at h
    cases hparse : Program.parse source session.limit with
    | error e' => simp [hparse] at h
    | ok program =>
      rw [hparse] at h
      obtain ⟨k, reached, hfails⟩ := exists_failsAt hrest h
      refine ⟨program, rfl, k, reached, hfails, fun cut hcut => ?_⟩
      obtain ⟨value, hcompleted⟩ := hfails.completed
      rw [run, hcut]
      exact congrArg Prod.snd hcompleted

/-- A text whose third statement fails inside a block, which has bound a name and printed by
then. -/
def brokenSource : String :=
  "let y = x + 1; print y; let z = let t = 7; print t; t + 'a'; print z;"

theorem run_brokenSource_atomic :
    ∃ final, ((initial 8).after ["let x = 1;"]).run brokenSource =
        (.error (.failed (.mismatch ⟨.add, .int, .str⟩)), final) ∧
      ∃ program, Program.parse brokenSource 8 = .ok program ∧
        ∃ k reached, ((initial 8).after ["let x = 1;"]).FailsAt program
          (.mismatch ⟨.add, .int, .str⟩) final k reached := by
  have hfails : (((initial 8).after ["let x = 1;"]).run brokenSource).1 =
      .error (.failed (.mismatch ⟨.add, .int, .str⟩)) := by
    decide +kernel
  have hrun : ((initial 8).after ["let x = 1;"]).run brokenSource =
      (.error (.failed (.mismatch ⟨.add, .int, .str⟩)),
        (((initial 8).after ["let x = 1;"]).run brokenSource).2) :=
    Prod.ext hfails rfl
  obtain ⟨program, hparse, k, reached, hat, -⟩ := (run_error_atomic 8 _ _).2 _ _ hrun
  exact ⟨_, hrun, program, hparse, k, reached, hat⟩

end Session

end Blockscript
