import Blockscript.Proofs.Manuscript

/-!
# The longest match

What is read at an offset of a text is defined here without an algorithm. First comes the longest
run of blanks and comments. If the text does not end there, the longest part of what follows is
taken that is written like a token. Then it is looked whether something stands behind that part that
cannot follow it: that spoils a number or a word, as far as it goes. If no part is written like a
token, the first character is to blame.

Reading does just that. The first character decides which patterns can match, so they do not have to
be tried in turn; and the longest match is found without going back, except that a number has to
look behind a decimal point before it takes it.

## Main definitions

* `Text.IsLongest` : the longest first part of a text that has a property.
* `Text.IsLayoutRun` : runs of blanks and comments.
* `IsTokenText` : the texts that are written like tokens.
* `Word.spoiling` : what stands behind a word and spoils it.
* `Token.ReadsAs` : what is read at an offset.

## Main results

* `Text.isLongest_splitLayout` : the layout that is cut off is the longest run.
* `Lexeme.read_spec` : a lexeme is the longest match, checked for what follows it.
* `Token.read_eq_iff_readsAs` : the headline.
-/

namespace Blockscript

/-! ### Longest parts -/

namespace Text

/-- `part` is the longest first part of the text that has the property. -/
structure IsLongest (P : List Char → Prop) (cs part : List Char) : Prop where
  isPrefix : part <+: cs
  holds : P part
  length_le : ∀ other, other <+: cs → P other → other.length ≤ part.length

theorem IsLongest.unique {P : List Char → Prop} {cs part part' : List Char}
    (h : IsLongest P cs part) (h' : IsLongest P cs part') : part = part' := by
  have hle : part.length ≤ part'.length := h'.length_le part h.isPrefix h.holds
  have hge : part'.length ≤ part.length := h.length_le part' h'.isPrefix h'.holds
  have hprefix : part <+: part' := List.prefix_of_prefix_length_le h.isPrefix h'.isPrefix hle
  exact hprefix.eq_of_length (Nat.le_antisymm hle hge)

/-! ### Layout -/

/-- Blanks and comments in any order. A comment reaches from two slashes up to the next line break,
or to the end. -/
inductive IsLayoutRun : List Char → Prop where
  | nil : IsLayoutRun []
  | blank {c : Char} {cs : List Char} (hc : isLayout c = true) (h : IsLayoutRun cs) :
    IsLayoutRun (c :: cs)
  | comment {body cs : List Char} (hbody : '\n' ∉ body) (hends : ∀ c ∈ cs.head?, c = '\n')
    (h : IsLayoutRun cs) : IsLayoutRun ('/' :: '/' :: (body ++ cs))

/-- What is cut off is a run; inside a comment, it is one after the rest of the line. -/
theorem isLayoutRun_splitLayoutFrom (cs : List Char) :
    IsLayoutRun (splitLayoutFrom false cs).1 ∧
      ∃ body run, (splitLayoutFrom true cs).1 = body ++ run ∧ '\n' ∉ body ∧
        (∀ c ∈ run.head?, c = '\n') ∧ IsLayoutRun run := by
  induction cs with
  | nil => exact ⟨.nil, [], [], rfl, by simp, by simp, .nil⟩
  | cons c cs ih =>
    obtain ⟨hrun, body, run, hsplit, hbody, hends, hrest⟩ := ih
    constructor
    · rw [splitLayoutFrom, if_neg (by simp)]
      split_ifs with hlayout hslash
      · exact .blank hlayout hrun
      · -- The second slash is on the line, so it is the first character of the body.
        obtain ⟨rfl, hhead⟩ := hslash
        obtain ⟨ds, rfl⟩ := List.head?_eq_some_iff.mp hhead
        obtain ⟨gap, hgap⟩ : ∃ gap, (splitLayoutFrom true ('/' :: ds)).1 = '/' :: gap := ⟨_, rfl⟩
        cases body with
        | nil =>
          obtain rfl : run = '/' :: gap := hsplit.symm.trans hgap
          exact absurd (hends '/' rfl) (by decide)
        | cons d body =>
          obtain ⟨rfl, -⟩ := List.cons_eq_cons.mp (hsplit.symm.trans hgap)
          show IsLayoutRun ('/' :: (splitLayoutFrom true ('/' :: ds)).1)
          rw [hsplit]
          exact .comment (fun hmem => hbody (.tail _ hmem)) hends hrest
      · exact .nil
    · rw [splitLayoutFrom, if_pos rfl]
      by_cases hc : c = '\n'
      · subst hc
        exact ⟨[], _, rfl, by simp, by simp, .blank rfl hrun⟩
      · have hc' : (c != '\n') = true := bne_iff_ne.mpr hc
        refine ⟨c :: body, run, ?_, by simp [Ne.symm hc, hbody], hends, hrest⟩
        rw [hc', List.cons_append, ← hsplit]

/-- A line break ends a comment. -/
theorem splitLayoutFrom_lineBreak (cs : List Char) :
    splitLayoutFrom true ('\n' :: cs) = splitLayoutFrom false ('\n' :: cs) :=
  rfl

/-- A run in front of a text is cut off, perhaps with more. -/
theorem IsLayoutRun.prefix_splitLayout {gap : List Char} (h : IsLayoutRun gap) (cs : List Char) :
    gap <+: (splitLayout (gap ++ cs)).1 := by
  rw [splitLayout]
  induction h with
  | nil => exact List.nil_prefix
  | blank hc _ ih =>
    rw [List.cons_append, splitLayoutFrom, if_neg (by simp), if_pos hc]
    exact List.cons_prefix_cons.mpr ⟨rfl, ih⟩
  | @comment body run hbody hends _ ih =>
    have hline : '\n' ∉ '/' :: body := by simpa using hbody
    have hafter : run <+: (splitLayoutFrom true (run ++ cs)).1 := by
      cases run with
      | nil => exact List.nil_prefix
      | cons c run =>
        obtain rfl := hends c rfl
        rw [List.cons_append, splitLayoutFrom_lineBreak]
        exact ih
    have hcomment : (splitLayoutFrom true ('/' :: (body ++ (run ++ cs)))).1 =
        '/' :: (body ++ (splitLayoutFrom true (run ++ cs)).1) := by
      rw [← List.cons_append, splitLayoutFrom_true_append hline, List.cons_append]
    rw [List.cons_append, List.cons_append, List.append_assoc, splitLayoutFrom,
      if_neg (by simp), if_neg (by decide), if_pos ⟨rfl, rfl⟩]
    refine List.cons_prefix_cons.mpr ⟨rfl, ?_⟩
    rw [hcomment, List.cons_prefix_cons, List.prefix_append_right_inj]
    exact ⟨rfl, hafter⟩

/-- **The layout that is cut off is the longest run.** -/
theorem isLongest_splitLayout (cs : List Char) : IsLongest IsLayoutRun cs (splitLayout cs).1 := by
  refine ⟨⟨_, splitLayout_append cs⟩, (isLayoutRun_splitLayoutFrom cs).1, ?_⟩
  rintro other ⟨rest, rfl⟩ hother
  exact (hother.prefix_splitLayout rest).length_le

end Text

/-! ### Patterns -/

/-- The text is written like a token. -/
def IsTokenText (text : List Char) : Prop :=
  ∃ kind, Word.Spelled ⟨kind, text⟩

/-- What stands behind a word and spoils it: all characters up to the first that may follow. -/
def Word.spoiling (w : Word) (after : List Char) : List Char :=
  match w.kind with
  | .integer | .float => after.takeWhile spoilsNumber
  | .identifier | .keyword _ => after.takeWhile fun c => !endsWord c
  | _ => []

/-- What is said of a word that is spoilt. -/
def Word.malformed (w : Word) (text : String) : LexicalCause :=
  match w.kind with
  | .integer | .float => .malformedNumber text
  | _ => .malformedIdentifier text

/-- What is said of a character at which nothing is written like a token. -/
def unmatchedCause (c : Char) : LexicalCause :=
  if c = '\x22' ∨ c = '\x27' then .unterminatedString else .unrecognizedChar c

/-- The lexeme of a word that `after` follows. -/
def Word.lexeme (w : Word) (after : List Char) : Lexeme :=
  if w.spoiling after = [] then .token w.kind w.text
  else .fault (w.malformed (String.ofList (w.text ++ w.spoiling after)))
    (w.text ++ w.spoiling after)

/-- The word is the longest first part of the text that is written like a token, and `after` is what
follows it. -/
structure Word.IsLongestMatch (w : Word) (cs after : List Char) : Prop where
  eq_append : cs = w.text ++ after
  spelled : w.Spelled
  isLongest : Text.IsLongest IsTokenText cs w.text

/-- No first part of the text is written like a token. -/
def Text.Unmatched (cs : List Char) : Prop :=
  ∀ part, part <+: cs → ¬ IsTokenText part

/-- What stands at byte `start` of a text of `size` bytes, if `cs` follows and there is no layout in
front of it. -/
inductive Token.ReadsAs (size start : Nat) (cs : List Char) : Reading → Prop where
  | eof (h : start = size) : ReadsAs size start cs (.eof size)
  | token {w : Word} {after : List Char} (h : w.IsLongestMatch cs after)
    (hspoiling : w.spoiling after = []) :
    ReadsAs size start cs
      (.token ⟨w.kind, String.ofList w.text, ⟨start, start + Text.byteLength w.text⟩⟩ after)
  | malformed {w : Word} {after : List Char} (h : w.IsLongestMatch cs after)
    (hspoiling : w.spoiling after ≠ []) :
    ReadsAs size start cs
      (.fault (w.malformed (String.ofList (w.text ++ w.spoiling after)))
        ⟨start, start + Text.byteLength (w.text ++ w.spoiling after)⟩)
  | unmatched {c : Char} {ds : List Char} (hcs : cs = c :: ds) (h : Text.Unmatched cs) :
    ReadsAs size start cs (.fault (unmatchedCause c) ⟨start, start + c.utf8Size⟩)

/-! ### The first character -/

namespace Word

/-- How a text is written like a token is decided by its first character. -/
inductive Opens (c : Char) (cs : List Char) : Prop where
  | number (hc : c.isDigit = true) (h : Decimal.IsDigits (c :: cs) ∨ Decimal.IsDecimal (c :: cs))
  | word (hc : startsWord c = true) (h : ∀ d ∈ c :: cs, continuesWord d = true)
  | string (hc : c = '\x22' ∨ c = '\x27') (body : List Char) (hbody : c ∉ body)
    (hcs : cs = body ++ [c])
  | symbol (kind : Token.Kind) (hc : Lexeme.symbolKind? c = some kind) (hcs : cs = [])

theorem Spelled.opens {w : Word} (h : w.Spelled) {c : Char} {cs : List Char}
    (htext : w.text = c :: cs) : Opens c cs := by
  cases h with
  | @name text h =>
    obtain rfl : text = c :: cs := htext
    obtain ⟨d, ds, hcons, hd⟩ := h.begins
    obtain ⟨rfl, rfl⟩ := List.cons_eq_cons.mp hcons
    exact .word hd h.goesOn
  | keyword word =>
    cases word with
    | letWord =>
      obtain ⟨rfl, rfl⟩ : 'l' = c ∧ ['e', 't'] = cs := List.cons_eq_cons.mp htext
      exact .word rfl (List.all_eq_true.mp rfl)
    | printWord =>
      obtain ⟨rfl, rfl⟩ : 'p' = c ∧ ['r', 'i', 'n', 't'] = cs := List.cons_eq_cons.mp htext
      exact .word rfl (List.all_eq_true.mp rfl)
  | @integer text h =>
    obtain rfl : text = c :: cs := htext
    exact .number (h.2 c (by simp)) (.inl h)
  | @float text h =>
    obtain rfl : text = c :: cs := htext
    obtain ⟨whole, fraction, hwhole, -, hcons⟩ := id h
    obtain ⟨d, ds, rfl⟩ := List.exists_cons_of_ne_nil hwhole.1
    obtain ⟨rfl, -⟩ := List.cons_eq_cons.mp hcons
    exact .number (hwhole.2 c (by simp)) (.inr h)
  | @string quote body hquote hbody =>
    obtain ⟨rfl, rfl⟩ : quote = c ∧ body ++ [quote] = cs := List.cons_eq_cons.mp htext
    exact .string hquote body hbody rfl
  | @symbol kind d h =>
    obtain ⟨rfl, rfl⟩ : d = c ∧ [] = cs := List.cons_eq_cons.mp htext
    exact .symbol kind h rfl

namespace Opens

variable {c : Char} {cs : List Char}

theorem of_isDigit (h : Opens c cs) (hc : c.isDigit = true) :
    Decimal.IsDigits (c :: cs) ∨ Decimal.IsDecimal (c :: cs) := by
  cases h with
  | number _ h => exact h
  | word hword _ =>
    rw [isDigit_eq_false_of_startsWord hword] at hc
    cases hc
  | string hquote _ _ _ => rcases hquote with rfl | rfl <;> cases hc
  | symbol kind hsymbol _ =>
    have hends := continuesWord_spoilsNumber_of_endsWord (endsWord_of_symbolKind hsymbol)
    rw [continuesWord_of_isDigit hc] at hends
    cases hends.1

theorem of_startsWord (h : Opens c cs) (hc : startsWord c = true) :
    ∀ d ∈ c :: cs, continuesWord d = true := by
  cases h with
  | number hdigit _ =>
    rw [isDigit_eq_false_of_startsWord hc] at hdigit
    cases hdigit
  | word _ h => exact h
  | string hquote _ _ _ => rcases hquote with rfl | rfl <;> cases hc
  | symbol kind hsymbol _ =>
    have hends := continuesWord_spoilsNumber_of_endsWord (endsWord_of_symbolKind hsymbol)
    rw [Lexeme.continuesWord_of_startsWord hc] at hends
    cases hends.1

theorem of_quote (h : Opens c cs) (hc : c = '\x22' ∨ c = '\x27') :
    ∃ body, c ∉ body ∧ cs = body ++ [c] := by
  cases h with
  | number hdigit _ => rcases hc with rfl | rfl <;> cases hdigit
  | word hword _ => rcases hc with rfl | rfl <;> cases hword
  | string _ body hbody hcs => exact ⟨body, hbody, hcs⟩
  | symbol kind hsymbol _ => rcases hc with rfl | rfl <;> cases hsymbol

theorem of_other (h : Opens c cs) (hdigit : ¬ c.isDigit = true) (hword : ¬ startsWord c = true)
    (hquote : ¬ (c = '\x22' ∨ c = '\x27')) :
    cs = [] ∧ ∃ kind, Lexeme.symbolKind? c = some kind := by
  cases h with
  | number hc _ => exact absurd hc hdigit
  | word hc _ => exact absurd hc hword
  | string hc _ _ _ => exact absurd hc hquote
  | symbol kind hc hcs => exact ⟨hcs, kind, hc⟩

end Opens

/-- A text is written like a token of one kind only. -/
theorem Spelled.kind_unique {kind kind' : Token.Kind} {text : List Char}
    (h : Spelled ⟨kind, text⟩) (h' : Spelled ⟨kind', text⟩) : kind = kind' := by
  obtain ⟨c, cs, htext, -, hread⟩ := h.read (stops_nil _)
  obtain ⟨c', cs', htext', -, hread'⟩ := h'.read (stops_nil _)
  obtain ⟨rfl, rfl⟩ := List.cons_eq_cons.mp (htext.symm.trans htext')
  rw [hread] at hread'
  exact (Lexeme.token.inj hread').1

theorem IsLongestMatch.exists_cons {w : Word} {cs after : List Char}
    (h : w.IsLongestMatch cs after) : ∃ c ds, cs = c :: ds := by
  obtain ⟨c, ds, htext⟩ := List.exists_cons_of_ne_nil h.spelled.text_ne_nil
  exact ⟨c, ds ++ after, by rw [h.eq_append, htext, List.cons_append]⟩

section Checks

variable {kind : Token.Kind} (text : List Char)

/-- How numbers are checked. -/
theorem checks_of_number (h : kind = .integer ∨ kind = .float) :
    spoiling ⟨kind, text⟩ = List.takeWhile spoilsNumber ∧
      malformed ⟨kind, text⟩ = .malformedNumber := by
  rcases h with rfl | rfl <;> exact ⟨rfl, rfl⟩

/-- How identifiers and keywords are checked. -/
theorem checks_of_word (h : kind = .identifier ∨ ∃ word, kind = .keyword word) :
    spoiling ⟨kind, text⟩ = List.takeWhile (fun c => !endsWord c) ∧
      malformed ⟨kind, text⟩ = .malformedIdentifier := by
  rcases h with rfl | ⟨word, rfl⟩ <;> exact ⟨rfl, rfl⟩

/-- Symbols may be followed by anything. -/
theorem spoiling_of_symbolKind? {c : Char} (h : Lexeme.symbolKind? c = some kind)
    (after : List Char) : spoiling ⟨kind, text⟩ after = [] := by
  rw [Lexeme.symbolKind?] at h
  split_ifs at h <;> cases h <;> rfl

end Checks

theorem IsLongestMatch.unique {w w' : Word} {cs after after' : List Char}
    (h : w.IsLongestMatch cs after) (h' : w'.IsLongestMatch cs after') :
    w = w' ∧ after = after' := by
  obtain ⟨kind, text⟩ := w
  obtain ⟨kind', text'⟩ := w'
  obtain rfl : text = text' := h.isLongest.unique h'.isLongest
  obtain rfl : kind = kind' := h.spelled.kind_unique h'.spelled
  exact ⟨rfl, List.append_cancel_left (h.eq_append.symm.trans h'.eq_append)⟩

end Word

theorem IsTokenText.exists_opens {part cs : List Char} {c : Char} (h : IsTokenText part)
    (hpart : part <+: c :: cs) : ∃ ds, part = c :: ds ∧ ds <+: cs ∧ Word.Opens c ds := by
  obtain ⟨kind, hspelled⟩ := h
  obtain ⟨d, ds, rfl⟩ := List.exists_cons_of_ne_nil hspelled.text_ne_nil
  obtain ⟨rfl, hds⟩ := List.cons_prefix_cons.mp hpart
  exact ⟨ds, rfl, hds, hspelled.opens rfl⟩

namespace Lexeme

open Text (IsLongest)

variable {c : Char} {cs : List Char}

/-! ### One lexeme -/

theorem prefix_takeWhile {p : Char → Bool} {part : List Char} (hpart : part <+: cs)
    (h : ∀ d ∈ part, p d = true) : part <+: cs.takeWhile p := by
  obtain ⟨rest, rfl⟩ := hpart
  rw [List.takeWhile_append_of_pos h]
  exact List.prefix_append _ _

theorem takeWhile_prefix_number (cs : List Char) : cs.takeWhile Char.isDigit <+: (number cs).2 := by
  rw [number]
  split
  · split
    · exact List.prefix_rfl
    · exact List.prefix_append _ _
  · exact List.prefix_rfl

/-- No number at the front of a text is longer than the one that is read. -/
theorem prefix_number {part : List Char} (hpart : part <+: cs)
    (h : Decimal.IsDigits part ∨ Decimal.IsDecimal part) : part <+: (number cs).2 := by
  rcases h with h | ⟨whole, fraction, hwhole, hfraction, rfl⟩
  · exact (prefix_takeWhile hpart h.2).trans (takeWhile_prefix_number cs)
  · obtain ⟨rest, rfl⟩ := hpart
    have hpoint : ∀ c ∈ ('.' :: (fraction ++ rest)).head?, c.isDigit = false := by simp
    rw [List.append_assoc, List.cons_append]
    simp only [number, takeWhile_append_of_stop hwhole.2 hpoint,
      dropWhile_append_of_stop hwhole.2 hpoint, List.takeWhile_append_of_pos hfraction.2]
    split
    · next hnil => exact absurd (List.append_eq_nil_iff.mp hnil).1 hfraction.1
    · rw [List.prefix_append_right_inj, List.cons_prefix_cons]
      exact ⟨rfl, List.prefix_append _ _⟩

theorem number_fst (cs : List Char) : (number cs).1 = .integer ∨ (number cs).1 = .float := by
  rw [number]
  split
  · split
    · exact .inl rfl
    · exact .inr rfl
  · exact .inl rfl

/-- A text that begins with a digit. -/
theorem readNumber_spec (hc : c.isDigit = true) :
    ∃ w after, Word.IsLongestMatch w (c :: cs) after ∧ readNumber (c :: cs) = w.lexeme after := by
  obtain ⟨after, hafter⟩ := number_prefix (c :: cs)
  have hspelled := @spelled_number c cs hc
  refine ⟨⟨_, _⟩, after, ⟨hafter.symm, hspelled, number_prefix _, ⟨_, hspelled⟩, ?_⟩, ?_⟩
  · intro part hpart htoken
    obtain ⟨ds, rfl, -, hopens⟩ := htoken.exists_opens hpart
    exact (prefix_number hpart (hopens.of_isDigit hc)).length_le
  · have hdrop : (c :: cs).drop (number (c :: cs)).2.length = after := by
      rw [← congrArg (List.drop (number (c :: cs)).2.length) hafter, List.drop_left]
    obtain ⟨hspoiling, hmalformed⟩ :=
      Word.checks_of_number (number (c :: cs)).2 (number_fst (c :: cs))
    rw [readNumber, hdrop, Word.lexeme, hspoiling, hmalformed]
    cases after.takeWhile spoilsNumber <;> rfl

theorem wordKind_cases (text : List Char) :
    wordKind text = .identifier ∨ ∃ word, wordKind text = .keyword word := by
  rw [wordKind]
  split_ifs
  · exact .inr ⟨_, rfl⟩
  · exact .inr ⟨_, rfl⟩
  · exact .inl rfl

/-- A text that begins with a letter or an underscore. -/
theorem readWord_spec (hc : startsWord c = true) :
    ∃ w after, Word.IsLongestMatch w (c :: cs) after ∧ readWord (c :: cs) = w.lexeme after := by
  have hspelled : Word.Spelled ⟨wordKind ((c :: cs).takeWhile continuesWord),
      (c :: cs).takeWhile continuesWord⟩ := by
    refine spelled_wordKind ⟨c, cs.takeWhile continuesWord, ?_, hc⟩ fun d hd =>
      List.mem_takeWhile_imp hd
    rw [List.takeWhile_cons_of_pos (continuesWord_of_startsWord hc)]
  refine ⟨_, (c :: cs).dropWhile continuesWord, ⟨List.takeWhile_append_dropWhile.symm, hspelled,
    List.takeWhile_prefix continuesWord, ⟨_, hspelled⟩, ?_⟩, ?_⟩
  · intro part hpart htoken
    obtain ⟨ds, rfl, -, hopens⟩ := htoken.exists_opens hpart
    exact (prefix_takeWhile hpart (hopens.of_startsWord hc)).length_le
  · obtain ⟨hspoiling, hmalformed⟩ := Word.checks_of_word ((c :: cs).takeWhile continuesWord)
      (wordKind_cases ((c :: cs).takeWhile continuesWord))
    rw [readWord, Word.lexeme, hspoiling, hmalformed]
    cases ((c :: cs).dropWhile continuesWord).takeWhile (fun c => !endsWord c) <;> rfl

/-- A literal ends at the next quote of its sort. -/
theorem isLongestMatch_string {body after : List Char} (hc : c = '\x22' ∨ c = '\x27')
    (hbody : c ∉ body) :
    Word.IsLongestMatch ⟨.string, c :: (body ++ [c])⟩ (c :: (body ++ c :: after)) after := by
  have happend : c :: (body ++ c :: after) = c :: (body ++ [c]) ++ after := by simp
  refine ⟨happend, .string hc hbody, ⟨after, happend.symm⟩, ⟨_, .string hc hbody⟩, ?_⟩
  intro part hpart htoken
  obtain ⟨ds, rfl, hds, hopens⟩ := htoken.exists_opens hpart
  obtain ⟨other, hother, rfl⟩ := hopens.of_quote hc
  -- A longer literal would have the first closing quote inside.
  by_contra hlonger
  have hclosed : body ++ [c] <+: body ++ c :: after := ⟨after, by simp⟩
  have hinside : body ++ [c] <+: other := by
    refine List.prefix_of_prefix_length_le hclosed ((List.prefix_append _ _).trans hds) ?_
    simp only [List.length_cons, List.length_append, List.length_nil] at hlonger ⊢
    omega
  exact hother (hinside.subset (by simp))

/-- A text that begins with a quote. -/
theorem readString_spec (hc : c = '\x22' ∨ c = '\x27') :
    (∃ w after, Word.IsLongestMatch w (c :: cs) after ∧ readString c cs = w.lexeme after) ∨
      Text.Unmatched (c :: cs) ∧ readString c cs = .fault (unmatchedCause c) [c] := by
  by_cases hmem : c ∈ cs
  · obtain ⟨body, after, rfl, hbody⟩ := List.eq_append_cons_of_mem hmem
    exact .inl ⟨_, after, isLongestMatch_string hc hbody, readString_append hbody⟩
  · refine .inr ⟨fun part hpart htoken => ?_, ?_⟩
    · obtain ⟨ds, rfl, hds, hopens⟩ := htoken.exists_opens hpart
      obtain ⟨body, -, rfl⟩ := hopens.of_quote hc
      exact hmem (hds.subset (by simp))
    · have hnone : cs.dropWhile (· != c) = [] := by
        rw [List.dropWhile_eq_nil_iff]
        intro d hd
        rw [bne_iff_ne]
        rintro rfl
        exact hmem hd
      rw [readString, hnone, unmatchedCause, if_pos hc]

/-- **A lexeme is the longest match, checked for what follows it.** If nothing matches, it is a
fault at the first character. -/
theorem read_spec (c : Char) (cs : List Char) :
    (∃ w after, Word.IsLongestMatch w (c :: cs) after ∧ read c cs = w.lexeme after) ∨
      Text.Unmatched (c :: cs) ∧ read c cs = .fault (unmatchedCause c) [c] := by
  rw [read]
  split_ifs with hdigit hword hquote
  · exact .inl (readNumber_spec hdigit)
  · exact .inl (readWord_spec hword)
  · exact readString_spec hquote
  · have hother : ∀ part, part <+: c :: cs → IsTokenText part →
        part = [c] ∧ ∃ kind, symbolKind? c = some kind := by
      intro part hpart htoken
      obtain ⟨ds, rfl, -, hopens⟩ := htoken.exists_opens hpart
      obtain ⟨rfl, hsymbol⟩ := hopens.of_other hdigit hword hquote
      exact ⟨rfl, hsymbol⟩
    cases hsymbol : symbolKind? c with
    | some kind =>
      have hspelled : Word.Spelled ⟨kind, [c]⟩ := .symbol hsymbol
      refine .inl ⟨_, cs, ⟨rfl, hspelled, ⟨cs, rfl⟩, ⟨kind, hspelled⟩, ?_⟩, ?_⟩
      · intro part hpart htoken
        rw [(hother part hpart htoken).1]
      · rw [Word.lexeme, if_pos (Word.spoiling_of_symbolKind? [c] hsymbol cs)]
    | none =>
      refine .inr ⟨fun part hpart htoken => ?_, ?_⟩
      · obtain ⟨-, kind, hkind⟩ := hother part hpart htoken
        rw [hsymbol] at hkind
        cases hkind
      · rw [unmatchedCause, if_neg hquote]

theorem read_of_isLongestMatch {w : Word} {after : List Char}
    (h : w.IsLongestMatch (c :: cs) after) : read c cs = w.lexeme after := by
  rcases read_spec c cs with ⟨w', after', h', hread⟩ | ⟨hnone, -⟩
  · obtain ⟨rfl, rfl⟩ := h.unique h'
    exact hread
  · exact absurd h.isLongest.holds (hnone w.text h.isLongest.isPrefix)

theorem read_of_unmatched (h : Text.Unmatched (c :: cs)) :
    read c cs = .fault (unmatchedCause c) [c] := by
  rcases read_spec c cs with ⟨w, after, hmatch, -⟩ | ⟨-, hread⟩
  · exact absurd hmatch.isLongest.holds (h w.text hmatch.isLongest.isPrefix)
  · exact hread

end Lexeme

/-! ### Reading at an offset -/

theorem Word.Spelled.kind_eq_keyword_iff {w : Word} (h : w.Spelled) (word : Keyword) :
    w.kind = .keyword word ↔ w.text = word.text.toList := by
  constructor
  · intro hkind
    cases h with
    | keyword word' =>
      cases hkind
      rfl
    | @symbol kind c hsymbol =>
      obtain rfl : kind = .keyword word := hkind
      rw [Lexeme.symbolKind?] at hsymbol
      split_ifs at hsymbol <;> cases hsymbol
    | _ => cases hkind
  · intro htext
    obtain ⟨kind, text⟩ := w
    obtain rfl : text = word.text.toList := htext
    exact h.kind_unique (.keyword word)

namespace Token

variable {offset : Nat} {cs gap rest : List Char}

/-- Something is read at every offset. -/
theorem exists_readsAs (start : Nat) (cs : List Char) :
    ∃ r, ReadsAs (start + Text.byteLength cs) start cs r := by
  cases cs with
  | nil => exact ⟨_, .eof rfl⟩
  | cons c ds =>
    rcases Lexeme.read_spec c ds with ⟨w, after, hmatch, -⟩ | ⟨hnone, -⟩
    · by_cases hspoiling : w.spoiling after = []
      · exact ⟨_, .token hmatch hspoiling⟩
      · exact ⟨_, .malformed hmatch hspoiling⟩
    · exact ⟨_, .unmatched rfl hnone⟩

/-- What is read does not depend on anything else. -/
theorem ReadsAs.read_eq {r : Reading} (hsplit : Text.splitLayout cs = (gap, rest))
    (h : ReadsAs (offset + Text.byteLength cs) (offset + Text.byteLength gap) rest r) :
    Token.read offset cs = r := by
  have hcs : gap ++ rest = cs := by rw [← Text.splitLayout_append cs, hsplit]
  cases h with
  | eof hend =>
    have hrest : rest = [] := by
      by_contra hne
      have := Text.byteLength_pos hne
      rw [← hcs, Text.byteLength_append] at hend
      omega
    subst hrest
    rw [List.append_nil] at hcs
    simp only [Token.read, hsplit, hcs]
  | @token w after hmatch hspoiling =>
    obtain ⟨c, ds, rfl⟩ := hmatch.exists_cons
    have hread : Lexeme.read c ds = .token w.kind w.text := by
      rw [Lexeme.read_of_isLongestMatch hmatch, Word.lexeme, if_pos hspoiling]
    have hafter : (c :: ds).drop w.text.length = after := by
      rw [hmatch.eq_append, List.drop_left]
    simp only [Token.read, hsplit, hread, hafter]
  | @malformed w after hmatch hspoiling =>
    obtain ⟨c, ds, rfl⟩ := hmatch.exists_cons
    have hread : Lexeme.read c ds =
        .fault (w.malformed (String.ofList (w.text ++ w.spoiling after)))
          (w.text ++ w.spoiling after) := by
      rw [Lexeme.read_of_isLongestMatch hmatch, Word.lexeme, if_neg hspoiling]
    simp only [Token.read, hsplit, hread]
  | @unmatched c ds hrest hnone =>
    subst hrest
    simp only [Token.read, hsplit, Lexeme.read_of_unmatched hnone, Text.byteLength_cons,
      Text.byteLength_nil, Nat.add_zero]

/-- **Reading finds the longest match and checks what follows it.** Let `cs` be the text from the
character boundary `pos` on. What is read there is `r` just if there is a way to cut off the longest
run of layout such that `r` is what then stands there: the end, or the longest match, unless
something behind it spoils it, or a fault at the first character. In particular something is read,
and only one thing.

If a token is read, the text goes on where its span ends, and it is a keyword just if it is written
like one. -/
theorem read_eq_iff_readsAs {text : String} {pos : Nat} {cs : List Char}
    (h : Text.dropBytes? pos text.toList = some cs) :
    (∀ r, Token.read pos cs = r ↔
      ∃ gap rest, cs = gap ++ rest ∧ Text.IsLongest Text.IsLayoutRun cs gap ∧
        ReadsAs (Text.byteLength text.toList) (pos + Text.byteLength gap) rest r) ∧
    ∀ t after, Token.read pos cs = .token t after →
      Text.dropBytes? t.span.stop text.toList = some after ∧
        ∀ word : Keyword, t.kind = .keyword word ↔ t.text = word.text := by
  obtain ⟨pre, htext, hpre⟩ := Text.dropBytes?_eq_some_iff.mp h
  have hsize : Text.byteLength text.toList = pos + Text.byteLength cs := by
    rw [htext, Text.byteLength_append, hpre]
  rw [hsize]
  refine ⟨fun r => ⟨?_, ?_⟩, fun t after hread => ?_⟩
  · rintro rfl
    have hcs := Text.splitLayout_append cs
    obtain ⟨r, hr⟩ := exists_readsAs (pos + Text.byteLength (Text.splitLayout cs).1)
      (Text.splitLayout cs).2
    rw [Nat.add_assoc, ← Text.byteLength_append, hcs] at hr
    have hread : Token.read pos cs = r := hr.read_eq rfl
    rw [hread]
    exact ⟨_, _, hcs.symm, Text.isLongest_splitLayout cs, hr⟩
  · rintro ⟨gap, rest, hcs, hlongest, hr⟩
    have hgap : (Text.splitLayout cs).1 = gap := (Text.isLongest_splitLayout cs).unique hlongest
    have hrest : (Text.splitLayout cs).2 = rest := by
      have hsplit := Text.splitLayout_append cs
      rw [hgap] at hsplit
      exact List.append_cancel_left (hsplit.trans hcs)
    exact hr.read_eq (Prod.ext hgap hrest)
  · obtain ⟨gap, hcs, hspelled, -, hstart, hstop, -⟩ := Token.exists_of_read hread
    constructor
    · refine Text.dropBytes?_eq_some_iff.mpr ⟨pre ++ (gap ++ t.word.text), ?_, ?_⟩
      · rw [htext, hcs]
        simp
      · rw [hstop, hstart, Text.byteLength_append, Text.byteLength_append, hpre, Nat.add_assoc]
    · intro word
      exact (hspelled.kind_eq_keyword_iff word).trans String.toList_inj

/-- A keyword after a comment, then a number that is spoilt. The blank between them is white space,
but not layout. -/
def spacedOut : String := "é //'\n let\u30003.x"

/-- The keyword is read from byte 2 on, although a quote and slashes are in front of it. The number
is read from byte 14 on, up to the point, which then spoils it. -/
theorem read_spacedOut_readsAs :
    ∃ cs, Text.dropBytes? 2 spacedOut.toList = some cs ∧
      (∃ gap rest, cs = gap ++ rest ∧ Text.IsLongest Text.IsLayoutRun cs gap ∧
        ReadsAs 17 (2 + Text.byteLength gap) rest
          (.token ⟨.keyword .letWord, "let", ⟨8, 11⟩⟩ ['\u3000', '3', '.', 'x'])) ∧
      Text.dropBytes? 11 spacedOut.toList = some ['\u3000', '3', '.', 'x'] ∧
      Text.dropBytes? 14 spacedOut.toList = some ['3', '.', 'x'] ∧
      ∃ gap rest, ['3', '.', 'x'] = gap ++ rest ∧
        Text.IsLongest Text.IsLayoutRun ['3', '.', 'x'] gap ∧
        ReadsAs 17 (14 + Text.byteLength gap) rest (.fault (.malformedNumber "3.x") ⟨14, 17⟩) := by
  have hkeyword : Text.dropBytes? 2 spacedOut.toList = some
      [' ', '/', '/', '\x27', '\n', ' ', 'l', 'e', 't', '\u3000', '3', '.', 'x'] := rfl
  have hnumber : Text.dropBytes? 14 spacedOut.toList = some ['3', '.', 'x'] := rfl
  obtain ⟨hiff, htoken⟩ := read_eq_iff_readsAs hkeyword
  exact ⟨_, hkeyword, (hiff _).mp rfl, (htoken _ _ rfl).1, hnumber,
    ((read_eq_iff_readsAs hnumber).1 _).mp rfl⟩

end Token

end Blockscript
