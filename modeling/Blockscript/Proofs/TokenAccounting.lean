import Blockscript.Proofs.LayoutIndependence
import Blockscript.Proofs.OnDemandAgreement

/-!
# Accounting for tokens

A parser that keeps a byte offset and reads tokens on demand could read in the wrong place: beyond
the end, inside a character, in the middle of a token or behind one that nobody has taken. It does
not. It reads only where the tokens of the text meet, every answer moves on, and the statements of a
program take all the tokens of the text, each once and in their order.

## Main definitions

* `Text.Advances` : reading goes on further on in a text.
* `Program.Covers` : the statements take the tokens, one statement after the other.

## Main results

* `OnDemand.Agree.advances` : a parser that succeeds moves on.
* `Program.covers_of_statements` : the statements take all the tokens.
* `Program.parse_token_accounting` : the account of a whole run.
-/

namespace Blockscript

/-- Reading goes on from `offset` at `next`: further on, within the text, between two characters. -/
structure Text.Advances (text : String) (offset next : Nat) : Prop where
  isBoundary : IsBoundary text next
  lt : offset < next
  le : next ≤ byteLength text.toList

/-- The statements of a program, read one after the other from an offset on, take all the tokens
from there to the end of the text: each statement at least one, and only such as lie between the
offset where it begins and the offset where the next one begins. -/
inductive Program.Covers (text : String) (limit : Nat) : Nat → List Token → Program → Prop where
  | nil {offset : Nat} (h : Stream.ofText? text offset =
      some ⟨offset, [], .eof (Text.byteLength text.toList)⟩) : Covers text limit offset [] []
  | cons {start stop : Nat} {ts rest : List Token} {stmt : Stmt} {program : Program}
    (hstmt : Stmt.parse? text start limit = some (.ok (stmt, stop))) (hts : ts ≠ [])
    (hspans : ∀ t ∈ ts,
      start ≤ t.span.start ∧ t.span.start < t.span.stop ∧ t.span.stop ≤ stop)
    (hrest : Covers text limit stop rest program) :
    Covers text limit start (ts ++ rest) (stmt :: program)

variable {α : Type} {text : String} {s r : Stream}

/-! ### Moving on -/

namespace OnDemand

variable {q : Nat → OnDemand (α × Nat)} {p : Parser α} {a : α}

/-- **A parser that succeeds moves on.** -/
theorem Agree.advances (h : Agree text q p) {offset next : Nat}
    (hoffset : Text.IsBoundary text offset)
    (hparse : ((Stream.ofText? text offset).map fun s =>
      (p.run s).map fun (a, rest) => (a, rest.start)) = some (.ok (a, next))) :
    Text.Advances text offset next := by
  obtain ⟨s, hof, hs, rfl⟩ := Stream.exists_isOf hoffset
  rw [hof, Option.map_some, Option.some_inj] at hparse
  cases hrun : p.run s with
  | error e =>
    rw [hrun] at hparse
    cases hparse
  | ok pair =>
    rw [hrun] at hparse
    cases hparse
    have hr := h.reaches hs hrun
    exact ⟨(hr.isOf hs).isBoundary, hr.start_lt hs (p.size_lt hrun), (hr.isOf hs).start_le⟩

end OnDemand

/-- The stream of a text pauses only between characters, where its tokens meet. -/
theorem Stream.PausesAt.breaksAt {offset : Nat} (h : (Stream.ofText text).PausesAt offset) :
    Text.IsBoundary text offset ∧ BreaksAt text offset := by
  obtain ⟨r, hr, rfl⟩ := h
  have hs := isOf_ofText text
  exact ⟨(hr.isOf hs).isBoundary, hr.start_eq hs⟩

/-! ### Taking all the tokens -/

/-- **The statements take all the tokens** of a stream that ends with its text. -/
theorem Program.covers_of_statements {limit : Nat} {program : Program} (hs : s.IsOf text)
    (h : statements (Stmt.parserWithin limit) s = .ok program) :
    s.ending = .eof (Text.byteLength text.toList) ∧ Covers text limit s.start s.tokens program := by
  fun_induction statements (Stmt.parserWithin limit) s generalizing program with
  | case1 => cases h
  | case2 s t r hn ht =>
    cases h
    obtain ⟨htokens, size, hending⟩ := hs.eofFree.ends hn ht
    obtain rfl := hs.eq_of_ending_eof hending
    refine ⟨hending, ?_⟩
    rw [htokens]
    refine .nil (hs.trans ?_)
    rw [← htokens, ← hending]
  | case3 => cases h
  | case4 => cases h
  | case5 s t r hn ht first s' hrun hlt rest hstmts ih =>
    cases h
    have hr := OnDemand.Agree.reaches (OnDemand.agree_stmt text limit) hs hrun
    obtain ⟨hending, hrest⟩ := ih (hr.isOf hs) hstmts
    refine ⟨hr.ending_eq ▸ hending, ?_⟩
    obtain ⟨ts, htokens, hspans⟩ := hr.exists_tokens hs
    rw [htokens]
    refine .cons ?_ ?_ hspans hrest
    · rw [Stmt.parse?, show Stream.ofText? text s.start = some s from hs, Option.map_some, hrun]
      rfl
    · rintro rfl
      rw [Stream.size, Stream.size, htokens] at hlt
      exact lt_irrefl _ hlt

namespace Program

/-- **Accounting for tokens.** Reading a program on demand gives what reading the stream gives, and
reads only between characters, where the tokens of the text meet. Expressions and statements can be
read wherever there is a place between two characters, and whoever succeeds moves on. If the program
is read, its tokens go to the end of the text and its statements take them all; if it is refused for
a lexical fault, that fault is the one at which the tokens end. -/
theorem parse_token_accounting (text : String) (limit : Nat) :
    ((OnDemand.parse text limit).result = (parse text limit).mapError .refused ∧
      ∀ offset ∈ (OnDemand.parse text limit).offsets,
        Text.IsBoundary text offset ∧ Stream.BreaksAt text offset) ∧
    (∀ offset, Text.IsBoundary text offset →
      (∀ power, (Expr.parse? text offset power limit).isSome = true ∧
        ∀ e next, Expr.parse? text offset power limit = some (.ok (e, next)) →
          Text.Advances text offset next) ∧
      (Stmt.parse? text offset limit).isSome = true ∧
        ∀ stmt next, Stmt.parse? text offset limit = some (.ok (stmt, next)) →
          Text.Advances text offset next) ∧
    (∀ program, parse text limit = .ok program →
      (Stream.ofText text).ending = .eof (Text.byteLength text.toList) ∧
        Covers text limit 0 (Stream.ofText text).tokens program) ∧
    ∀ cause span, parse text limit = .error ⟨.lexical cause, span⟩ →
      (Stream.ofText text).ending = .fault cause span := by
  have hagrees := OnDemand.agrees_parse text limit
  refine ⟨⟨hagrees.result_eq, fun offset ho => (hagrees.pausesAt offset ho).breaksAt⟩, ?_, ?_, ?_⟩
  · intro offset hoffset
    obtain ⟨s, hof, -⟩ := Stream.exists_isOf hoffset
    refine ⟨fun power => ⟨?_, fun e next hparse => ?_⟩, ?_, fun stmt next hparse => ?_⟩
    · rw [Expr.parse?, hof]
      rfl
    · exact OnDemand.Agree.advances (OnDemand.agree_expr text limit limit power) hoffset hparse
    · rw [Stmt.parse?, hof]
      rfl
    · exact OnDemand.Agree.advances (OnDemand.agree_stmt text limit) hoffset hparse
  · intro program hparse
    exact covers_of_statements (Stream.isOf_ofText text) hparse
  · intro cause span hparse
    rw [hparse] at hagrees
    exact hagrees.reports.ending_eq

/-- Two statements with a character of two bytes in the first, whose literal ends at byte 10. -/
def greeting : String := "print 'é'; x"

/-- A text that cannot be read to its end. -/
def faulty : String := "x $"

/-- The account of `greeting`, read as a whole and from byte 5 on, and of `faulty`. -/
theorem parse_greeting_token_accounting :
    (Text.IsBoundary greeting 5 ∧ ¬ Text.IsBoundary greeting 8 ∧
      (OnDemand.parse greeting 1).offsets = [0, 0, 5, 10, 10, 11, 11, 11, 13, 13, 13, 13]) ∧
    (Expr.parse? greeting 5 0 1 = some (.ok (.str "é", 10)) ∧ Text.Advances greeting 5 10) ∧
    (parse greeting 1 = .ok [.print (.str "é"), .expr (.ref "x" [])] ∧
      (Stream.ofText greeting).ending = .eof 13 ∧
      Covers greeting 1 0 (Stream.ofText greeting).tokens
        [.print (.str "é"), .expr (.ref "x" [])]) ∧
    parse faulty 1 = .error ⟨.lexical (.unrecognizedChar '$'), ⟨2, 3⟩⟩ ∧
      (Stream.ofText faulty).ending = .fault (.unrecognizedChar '$') ⟨2, 3⟩ := by
  have hboundary : Text.IsBoundary greeting 5 := by decide
  have hexpr : Expr.parse? greeting 5 0 1 = some (.ok (.str "é", 10)) := by
    with_unfolding_all rfl
  have hparse : parse greeting 1 = .ok [.print (.str "é"), .expr (.ref "x" [])] := by
    with_unfolding_all rfl
  have hfault : parse faulty 1 = .error ⟨.lexical (.unrecognizedChar '$'), ⟨2, 3⟩⟩ := by
    with_unfolding_all rfl
  obtain ⟨-, hadvances, hcovers, -⟩ := parse_token_accounting greeting 1
  obtain ⟨-, -, -, hending⟩ := parse_token_accounting faulty 1
  exact ⟨⟨hboundary, by decide, by with_unfolding_all rfl⟩,
    ⟨hexpr, ((hadvances 5 hboundary).1 0).2 _ _ hexpr⟩, ⟨hparse, hcovers _ hparse⟩,
    hfault, hending _ _ hfault⟩

end Program

end Blockscript
