import Blockscript.Text.Utf8
import Blockscript.Token.Lexeme

/-!
# Token streams

The tokens of a text from some offset on. A stream ends either at the end of the text, which can be
read any number of times, or at the first place where no token can be read; that fault is reported
only when the place is reached.

## Main definitions

* `Token.Reading`, `Token.read` : the token at the front of a text, at a given offset.
* `Stream` : the tokens still to come and how they end.
* `Stream.ofText?` : the stream of a text from a byte offset on.
* `Stream.next` : the first token and the stream after it.

## Main results

* `Token.length_lt_of_read` : reading a token shortens the text.
* `Stream.size_le_of_next`, `Stream.size_lt_of_next` : taking a token never lengthens the stream,
  and shortens it unless the token is the end of the text.
-/

namespace Blockscript

namespace Token

/-- What the front of a text holds: a token and the text after it, the end of the text at an
offset, or a fault. -/
inductive Reading where
  | token (t : Token) (rest : List Char)
  | eof (size : Nat)
  | fault (cause : LexicalCause) (span : Span)

/-- Reads the first token of `cs`, a text that begins at byte `offset` of the source. -/
def read (offset : Nat) (cs : List Char) : Reading :=
  let parts := Text.splitLayout cs
  let start := offset + Text.byteLength parts.1
  match parts.2 with
  | [] => .eof start
  | c :: rest =>
    match Lexeme.read c rest with
    | .token kind text =>
      .token ⟨kind, String.ofList text, ⟨start, start + Text.byteLength text⟩⟩
        ((c :: rest).drop text.length)
    | .fault cause text => .fault cause ⟨start, start + Text.byteLength text⟩

/-- Reading a token shortens the text. -/
theorem length_lt_of_read {offset : Nat} {cs rest : List Char} {t : Token}
    (h : read offset cs = .token t rest) : rest.length < cs.length := by
  have hcs := congrArg List.length (Text.splitLayout_append cs)
  rw [read] at h
  split at h
  · simp at h
  · next c cs' hrest =>
    have hne := Lexeme.text_ne_nil c cs'
    split at h
    · next kind text hread =>
      simp only [Reading.token.injEq] at h
      rw [hread, Lexeme.text, ne_eq, ← List.length_eq_zero_iff] at hne
      rw [hrest] at hcs
      rw [← h.2]
      simp only [List.length_append, List.length_cons, List.length_drop] at hcs ⊢
      omega
    · simp at h

/-- The token that a reading stands for, or the error. -/
def Reading.result : Reading → Except SyntaxError Token
  | .token t _ => .ok t
  | .eof size => .ok (Token.eof size)
  | .fault cause span => .error ⟨.lexical cause, span⟩

end Token

/-- How a stream of tokens ends. -/
inductive Stream.Ending where
  /-- The text ends at offset `size`. -/
  | eof (size : Nat)
  /-- There is a place where no token can be read. -/
  | fault (cause : LexicalCause) (span : Span)
deriving DecidableEq, Repr

/-- The tokens still to come. -/
structure Stream where
  /-- The offset at which reading goes on: the end of the last token taken. -/
  start : Nat
  /-- The tokens before the end. -/
  tokens : List Token
  /-- What follows the last of them. -/
  ending : Stream.Ending
deriving DecidableEq, Repr

namespace Stream

/-- The tokens of `cs`, a text that begins at byte `offset` of the source, and how they end. -/
def scan (offset : Nat) (cs : List Char) : List Token × Ending :=
  match h : Token.read offset cs with
  | .token t rest =>
    have := Token.length_lt_of_read h
    let (tokens, ending) := scan t.span.stop rest
    (t :: tokens, ending)
  | .eof size => ([], .eof size)
  | .fault cause span => ([], .fault cause span)
termination_by cs.length

/-- The stream of `cs`, a text that begins at byte `offset` of the source. -/
def ofChars (offset : Nat) (cs : List Char) : Stream :=
  let scanned := scan offset cs
  ⟨offset, scanned.1, scanned.2⟩

/-- The stream of a text from byte `offset` on. There is none if the offset lies beyond the end or
inside a character. -/
def ofText? (text : String) (offset : Nat) : Option Stream :=
  (Text.dropBytes? offset text.toList).map (ofChars offset)

/-- The stream of a whole text. -/
def ofText (text : String) : Stream :=
  ofChars 0 text.toList

/-- The number of tokens before the end. -/
def size (s : Stream) : Nat :=
  s.tokens.length

/-- Takes the first token. At the end of the text this is the end itself, again and again. -/
def next (s : Stream) : Except SyntaxError (Token × Stream) :=
  match s.tokens with
  | t :: rest => .ok (t, ⟨t.span.stop, rest, s.ending⟩)
  | [] =>
    match s.ending with
    | .eof size => .ok (Token.eof size, ⟨size, [], s.ending⟩)
    | .fault cause span => .error ⟨.lexical cause, span⟩

/-- Takes the first token if it is of the given kind, and otherwise fails with `cause` at it. -/
def expect (kind : Token.Kind) (cause : String → GrammarCause) (s : Stream) :
    Except SyntaxError Stream := do
  let (t, rest) ← s.next
  if t.kind = kind then .ok rest else .error (t.reject cause)

/-- The error of nesting too deeply, which is blamed on the place where reading would go on. -/
def tooDeep (s : Stream) (limit : Nat) : SyntaxError :=
  ⟨.grammar (.tooDeep limit), ⟨s.start, s.start⟩⟩

/-! ### Taking a token shortens the stream -/

theorem size_le_of_next {s r : Stream} {t : Token} (h : s.next = .ok (t, r)) :
    r.size ≤ s.size := by
  rw [next] at h
  split at h
  · next hs =>
    cases h
    simp [size, hs]
  · split at h
    · cases h
      simp [size]
    · cases h

theorem size_lt_of_next {s r : Stream} {t : Token} (h : s.next = .ok (t, r)) (ht : t.kind ≠ .eof) :
    r.size < s.size := by
  rw [next] at h
  split at h
  · next hs =>
    cases h
    simp [size, hs]
  · split at h
    · cases h
      exact absurd rfl ht
    · cases h

theorem size_lt_of_expect {s r : Stream} {kind : Token.Kind} {cause : String → GrammarCause}
    (h : s.expect kind cause = .ok r) (hk : kind ≠ .eof) : r.size < s.size := by
  rw [expect] at h
  cases hn : s.next with
  | error e => simp [hn, bind, Except.bind] at h
  | ok p =>
    simp only [hn, bind, Except.bind] at h
    split at h
    · next hkind =>
      cases h
      exact size_lt_of_next hn (hkind ▸ hk)
    · cases h

end Stream

end Blockscript
