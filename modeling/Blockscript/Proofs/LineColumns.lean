import Blockscript.Proofs.Pauses
import Blockscript.Text.Position
import Mathlib.Data.List.Induction

/-!
# From offsets to lines and columns, and back

Errors are located by byte offset, and people are told a line and a column. Nothing is lost on the
way: an offset between two characters can be found again from its line and its column, every place
in the lines of a text has such an offset, and the order is kept.

Offsets count bytes and columns count characters. Line feeds may be counted either way, because the
byte of a line feed occurs in no other character (`count_utf8EncodeChar`).

The text before an offset is looked at in two ways. Read character by character, it leads from one
position to the next (`Position.next`), always to a later one. Cut into lines, it consists of some
that have ended and the beginning of another (`exists_eq_terminated_append`), and from there the
offset is found again.

## Main definitions

* `Text.lines`, `Text.terminated` : the lines of a text, and the text of lines that have ended.
* `Text.Position.next`, `Text.Position.after` : the position behind one more character, and behind
  a whole text.
* `Text.Position.IsIn`, `Text.Position.offset` : the places in the lines of a text, and their
  offsets.
* `Text.Position.Marks` : a position and an offset are the same place.

## Main results

* `Text.Position.ofOffset_eq_after` : the position of an offset is that behind the text before it.
* `Text.Position.lt_foldl_next` : it increases with every character.
* `Text.Position.ofOffset_eq_iff_marks`, `Text.Position.offset_eq_iff_marks` : the way from offsets
  to positions and the way back are the same relation.
* `Text.Position.ofOffset_invertible` : the headline.
-/

namespace Blockscript

namespace Text

/-! ### Bytes of characters -/

/-- The bytes of a text in UTF-8. -/
def bytes (text : String) : List UInt8 :=
  text.toByteArray.data.toList

theorem bytes_eq_flatMap (text : String) :
    bytes text = text.toList.flatMap String.utf8EncodeChar := by
  rw [bytes, ← String.utf8Encode_toList, List.utf8Encode, List.data_toByteArray]

theorem length_flatMap_utf8EncodeChar (cs : List Char) :
    (cs.flatMap String.utf8EncodeChar).length = byteLength cs := by
  induction cs with
  | nil => rfl
  | cons c cs ih =>
    rw [List.flatMap_cons, List.length_append, String.length_utf8EncodeChar, ih, byteLength_cons]

/-- The byte of a line feed occurs in no other character: all bytes of a character that takes more
than one are above those of ASCII. -/
theorem count_utf8EncodeChar (c : Char) :
    (String.utf8EncodeChar c).count 0x0a = if c = '\n' then 1 else 0 := by
  by_cases hc : c = '\n'
  · subst hc
    rfl
  · rw [if_neg hc, List.count_eq_zero]
    intro hmem
    have hval : c.toNat ≠ 10 := fun h => hc (Char.ext (UInt32.toNat_inj.mp h))
    -- One case for each number of bytes.
    simp only [String.utf8EncodeChar, Char.toNat_val] at hmem
    split_ifs at hmem <;> simp [← UInt8.toNat_inj] at hmem <;> omega

/-- Line feeds can be counted in bytes. -/
theorem count_flatMap_utf8EncodeChar (cs : List Char) :
    (cs.flatMap String.utf8EncodeChar).count 0x0a = cs.count '\n' := by
  induction cs with
  | nil => rfl
  | cons c cs ih =>
    rw [List.flatMap_cons, List.count_append, count_utf8EncodeChar, ih, List.count_cons,
      Nat.add_comm]
    simp

/-- The line feeds among the first bytes of a text are those of its first characters. -/
theorem count_take_bytes {text : String} {pre rest : List Char} (h : text.toList = pre ++ rest) :
    ((bytes text).take (byteLength pre)).count 0x0a = pre.count '\n' := by
  rw [bytes_eq_flatMap, h, List.flatMap_append, ← length_flatMap_utf8EncodeChar, List.take_left,
    count_flatMap_utf8EncodeChar]

/-! ### The text before an offset -/

/-- At the end of a first part, that part is cut off, and nothing of the next character. -/
theorem cutAt_byteLength_append (pre rest : List Char) :
    cutAt (byteLength pre) (pre ++ rest) = (pre, 0) := by
  induction pre with
  | nil =>
    cases rest with
    | nil => rfl
    | cons c rest =>
      have hc := c.utf8Size_pos
      rw [byteLength_nil, List.nil_append, cutAt, if_neg (by omega)]
  | cons c pre ih =>
    rw [byteLength_cons, List.cons_append, cutAt, if_pos (Nat.le_add_right _ _),
      Nat.add_sub_cancel_left, ih]

/-- An offset beyond the end counts as the end. -/
theorem cutAt_of_byteLength_le {cs : List Char} {n : Nat} (h : byteLength cs ≤ n) :
    cutAt n cs = (cs, 0) := by
  induction cs generalizing n with
  | nil => rfl
  | cons c cs ih =>
    rw [byteLength_cons] at h
    rw [cutAt, if_pos (by omega), ih (by omega)]

theorem lastLine_concat (cs : List Char) (c : Char) :
    lastLine (cs ++ [c]) = if c = '\n' then [] else lastLine cs ++ [c] := by
  by_cases hc : c = '\n' <;> simp [lastLine, hc]

/-! ### Lines -/

/-- The lines of a text, without the line feeds that end them. What follows the last line feed is a
line too, even if nothing follows it. -/
def lines (cs : List Char) : List (List Char) :=
  cs.splitOn '\n'

/-- The text of lines that have ended, each with its line feed. -/
def terminated (ls : List (List Char)) : List Char :=
  ls.flatMap (· ++ ['\n'])

@[simp] theorem terminated_nil : terminated [] = [] := rfl

@[simp] theorem terminated_cons (l : List Char) (ls : List (List Char)) :
    terminated (l :: ls) = l ++ '\n' :: terminated ls := by
  simp [terminated]

@[simp] theorem terminated_append (ls ks : List (List Char)) :
    terminated (ls ++ ks) = terminated ls ++ terminated ks := by
  simp [terminated]

/-- Where lines have ended, a line starts. -/
theorem terminated_eq_nil_or (ls : List (List Char)) :
    terminated ls = [] ∨ (terminated ls).getLast? = some '\n' := by
  induction ls using List.reverseRecOn with
  | nil => exact .inl rfl
  | append_singleton ls l _ =>
    right
    simp

/-- Every text consists of lines that have ended and one that has not. -/
theorem exists_eq_terminated_append (cs : List Char) :
    ∃ ls line, cs = terminated ls ++ line ∧ (∀ l ∈ ls, '\n' ∉ l) ∧ '\n' ∉ line := by
  induction cs using List.reverseRecOn with
  | nil => exact ⟨[], [], rfl, by simp, by simp⟩
  | append_singleton cs c ih =>
    obtain ⟨ls, line, rfl, hls, hline⟩ := ih
    by_cases hc : c = '\n'
    · refine ⟨ls ++ [line], [], by simp [hc], ?_, by simp⟩
      intro l hl
      rcases List.mem_append.mp hl with hl | hl
      · exact hls l hl
      · rwa [List.mem_singleton.mp hl]
    · refine ⟨ls, line ++ [c], by simp, hls, ?_⟩
      simp [hline, Ne.symm hc]

section Lines

variable {ls : List (List Char)} {line : List Char}

theorem count_terminated (hls : ∀ l ∈ ls, '\n' ∉ l) : (terminated ls).count '\n' = ls.length := by
  induction ls with
  | nil => rfl
  | cons l ls ih =>
    rw [List.forall_mem_cons] at hls
    rw [terminated_cons, List.count_append, List.count_eq_zero.mpr hls.1, List.count_cons_self,
      ih hls.2, Nat.zero_add, List.length_cons]

theorem lines_terminated_append (hls : ∀ l ∈ ls, '\n' ∉ l) (cs : List Char) :
    lines (terminated ls ++ cs) = ls ++ lines cs := by
  induction ls with
  | nil => rfl
  | cons l ls ih =>
    rw [List.forall_mem_cons] at hls
    rw [terminated_cons, List.append_assoc, List.cons_append, lines,
      List.splitOn_append_cons_self_of_not_mem hls.1, ← lines, ih hls.2, List.cons_append]

/-- What stands in front of a text on the same line belongs to its first line. -/
theorem exists_lines_append (hline : '\n' ∉ line) (cs : List Char) :
    ∃ l ls, lines (line ++ cs) = (line ++ l) :: ls := by
  induction line with
  | nil => exact List.exists_cons_of_ne_nil (List.splitOn_ne_nil '\n' cs)
  | cons c line ih =>
    rw [List.mem_cons, not_or] at hline
    obtain ⟨l, ls, hlines⟩ := ih hline.2
    refine ⟨l, ls, ?_⟩
    rw [List.cons_append, lines, List.splitOn_cons_eq_if_modifyHead, ← lines, hlines,
      if_neg (by simpa using Ne.symm hline.1)]
    rfl

/-- Behind lines that have ended, what has begun is the beginning of the next line. -/
theorem exists_lines_terminated_append (hls : ∀ l ∈ ls, '\n' ∉ l) (hline : '\n' ∉ line)
    (cs : List Char) :
    ∃ l ks, lines (terminated ls ++ (line ++ cs)) = ls ++ (line ++ l) :: ks := by
  obtain ⟨l, ks, hlines⟩ := exists_lines_append hline cs
  exact ⟨l, ks, by rw [lines_terminated_append hls, hlines]⟩

end Lines

/-- A line of a text contains no line feed, and stands behind the lines before it. -/
theorem exists_eq_terminated_take {cs l : List Char} {k : Nat} (h : (lines cs)[k]? = some l) :
    (∀ m ∈ (lines cs).take k, '\n' ∉ m) ∧ '\n' ∉ l ∧
      ∃ rest, cs = terminated ((lines cs).take k) ++ (l ++ rest) := by
  obtain ⟨ls, line, rfl, hls, hline⟩ := exists_eq_terminated_append cs
  have hlines : lines (terminated ls ++ line) = ls ++ [line] := by
    rw [lines_terminated_append hls, lines, List.splitOn_eq_singleton hline]
  rw [hlines] at h ⊢
  rcases Nat.lt_or_ge k ls.length with hk | hk
  · -- The line has ended.
    rw [List.getElem?_append_left hk] at h
    have hsplit : ls = ls.take k ++ l :: ls.drop (k + 1) := by
      obtain ⟨hk', rfl⟩ := List.getElem?_eq_some_iff.mp h
      rw [List.getElem_cons_drop, List.take_append_drop]
    rw [List.take_append_of_le_length (Nat.le_of_lt hk)]
    refine ⟨fun m hm => hls m (List.mem_of_mem_take hm), hls l (List.mem_of_getElem? h),
      '\n' :: (terminated (ls.drop (k + 1)) ++ line), ?_⟩
    conv_lhs => rw [hsplit]
    simp
  · -- It is the last one.
    rw [List.getElem?_append_right hk, List.getElem?_singleton] at h
    have hk : k = ls.length := by
      split_ifs at h
      omega
    subst hk
    obtain rfl : line = l := by simpa using h
    rw [List.take_left]
    exact ⟨hls, hline, [], by simp⟩

end Text

namespace Text.Position

/-! ### Going through a text -/

/-- Positions are ordered by their lines, and on the same line by their columns. -/
instance : LT Position where
  lt p q := Prod.lexLt (p.line, p.column) (q.line, q.column)

theorem lt_iff {p q : Position} :
    p < q ↔ p.line < q.line ∨ p.line = q.line ∧ p.column < q.column := .rfl

theorem lt_trans {p q r : Position} (hpq : p < q) (hqr : q < r) : p < r := by
  rw [lt_iff] at *
  omega

/-- The position behind one more character. -/
def next (p : Position) (c : Char) : Position :=
  if c = '\n' then ⟨p.line + 1, 1⟩ else ⟨p.line, p.column + 1⟩

theorem lt_next (p : Position) (c : Char) : p < p.next c := by
  rw [next]
  split_ifs
  · exact .inl (Nat.lt_succ_self _)
  · exact .inr ⟨rfl, Nat.lt_succ_self _⟩

/-- **Every character leads further on.** -/
theorem lt_foldl_next (p : Position) {cs : List Char} (hne : cs ≠ []) : p < cs.foldl next p := by
  induction cs generalizing p with
  | nil => exact absurd rfl hne
  | cons c cs ih =>
    rw [List.foldl_cons]
    by_cases hcs : cs = []
    · subst hcs
      exact p.lt_next c
    · exact lt_trans (p.lt_next c) (ih _ hcs)

/-- The position behind a text. -/
def after (cs : List Char) : Position :=
  cs.foldl next ⟨1, 1⟩

theorem after_append (cs ds : List Char) : after (cs ++ ds) = ds.foldl next (after cs) :=
  List.foldl_append

/-- Behind a text, lines are counted by their line feeds and columns by the characters of the last
line. -/
theorem after_eq (cs : List Char) : after cs = ⟨cs.count '\n' + 1, (lastLine cs).length + 1⟩ := by
  induction cs using List.reverseRecOn with
  | nil => rfl
  | append_singleton cs c ih =>
    rw [after_append, ih, List.foldl_cons, List.foldl_nil, lastLine_concat, List.count_append,
      List.count_singleton, next]
    by_cases hc : c = '\n' <;> simp [hc]

/-- **The position of an offset between two characters is that behind the text before it.** -/
theorem ofOffset_eq_after (pre rest : List Char) :
    ofOffset (pre ++ rest) (byteLength pre) = after pre := by
  rw [ofOffset, cutAt_byteLength_append, after_eq]
  rfl

theorem ofOffset_of_byteLength_le {cs : List Char} {n : Nat} (h : byteLength cs ≤ n) :
    ofOffset cs n = ofOffset cs (byteLength cs) := by
  rw [ofOffset, ofOffset, cutAt_of_byteLength_le h, cutAt_of_byteLength_le (Nat.le_refl _)]

/-! ### The way back -/

/-- The place is one of those in the lines of a text: in front of a character, or at the end of a
line. -/
def IsIn (cs : List Char) (p : Position) : Prop :=
  1 ≤ p.line ∧ 1 ≤ p.column ∧ ∃ l, (lines cs)[p.line - 1]? = some l ∧ p.column ≤ l.length + 1

/-- The byte offset of a place in the lines of a text: the bytes of the lines before, with their
line feeds, and those of the characters before on the same line. -/
def offset (cs : List Char) (p : Position) : Nat :=
  byteLength (terminated ((lines cs).take (p.line - 1))) +
    byteLength (((lines cs).getD (p.line - 1) []).take (p.column - 1))

section Terminated

variable {ls : List (List Char)} {line : List Char}

theorem foldl_next_of_not_mem (hline : '\n' ∉ line) (p : Position) :
    line.foldl next p = ⟨p.line, p.column + line.length⟩ := by
  induction line generalizing p with
  | nil => rfl
  | cons c line ih =>
    rw [List.mem_cons, not_or] at hline
    rw [List.foldl_cons, ih hline.2, next, if_neg (Ne.symm hline.1), List.length_cons]
    simp only [Nat.add_assoc, Nat.add_comm 1]

theorem foldl_next_terminated (hls : ∀ l ∈ ls, '\n' ∉ l) (n : Nat) :
    (terminated ls).foldl next ⟨n, 1⟩ = ⟨n + ls.length, 1⟩ := by
  induction ls generalizing n with
  | nil => rfl
  | cons l ls ih =>
    rw [List.forall_mem_cons] at hls
    rw [terminated_cons, List.foldl_append, foldl_next_of_not_mem hls.1, List.foldl_cons, next,
      if_pos rfl, ih hls.2, List.length_cons]
    simp only [Nat.add_assoc, Nat.add_comm 1]

/-- Behind lines that have ended and the beginning of another, the position is given by the number
of the lines and that of the characters. -/
theorem after_terminated_append (hls : ∀ l ∈ ls, '\n' ∉ l) (hline : '\n' ∉ line) :
    after (terminated ls ++ line) = ⟨ls.length + 1, line.length + 1⟩ := by
  rw [after_append, after, foldl_next_terminated hls, foldl_next_of_not_mem hline]
  simp only [Nat.add_comm 1]

/-- And these numbers give the offset. -/
theorem offset_terminated_append (hls : ∀ l ∈ ls, '\n' ∉ l) (hline : '\n' ∉ line)
    (rest : List Char) :
    offset (terminated ls ++ (line ++ rest)) ⟨ls.length + 1, line.length + 1⟩ =
      byteLength (terminated ls ++ line) := by
  obtain ⟨l, ks, hlines⟩ := exists_lines_terminated_append hls hline rest
  rw [offset, hlines]
  simp

end Terminated

/-- The position and the offset are the same place in a text: that behind some lines that have
ended and the beginning of the next line. -/
def Marks (cs : List Char) (p : Nat) (q : Position) : Prop :=
  ∃ ls line rest, cs = terminated ls ++ (line ++ rest) ∧ (∀ l ∈ ls, '\n' ∉ l) ∧ '\n' ∉ line ∧
    p = byteLength (terminated ls ++ line) ∧ q = ⟨ls.length + 1, line.length + 1⟩

theorem ofOffset_eq_iff_marks {text : String} {p : Nat} {q : Position} :
    IsBoundary text p ∧ ofOffset text.toList p = q ↔ Marks text.toList p q := by
  constructor
  · rintro ⟨hp, rfl⟩
    obtain ⟨pre, rest, htext, rfl⟩ := isBoundary_iff.mp hp
    obtain ⟨ls, line, rfl, hls, hline⟩ := exists_eq_terminated_append pre
    refine ⟨ls, line, rest, by rw [htext, List.append_assoc], hls, hline, rfl, ?_⟩
    rw [htext, ofOffset_eq_after, after_terminated_append hls hline]
  · rintro ⟨ls, line, rest, htext, hls, hline, rfl, rfl⟩
    rw [← List.append_assoc] at htext
    refine ⟨isBoundary_iff.mpr ⟨_, rest, htext, rfl⟩, ?_⟩
    rw [htext, ofOffset_eq_after, after_terminated_append hls hline]

theorem offset_eq_iff_marks {cs : List Char} {p : Nat} {q : Position} :
    q.IsIn cs ∧ q.offset cs = p ↔ Marks cs p q := by
  constructor
  · -- The lines before are complete, and the own line is cut at the column.
    rintro ⟨⟨hline, hcolumn, l, hl, hle⟩, rfl⟩
    obtain ⟨hls, hnot, rest, hcs⟩ := exists_eq_terminated_take hl
    have hlt := (List.getElem?_eq_some_iff.mp hl).1
    refine ⟨(lines cs).take (q.line - 1), l.take (q.column - 1), l.drop (q.column - 1) ++ rest, ?_,
      hls, fun h => hnot (List.mem_of_mem_take h), ?_, ?_⟩
    · rw [← List.append_assoc (l.take _), List.take_append_drop]
      exact hcs
    · rw [offset, List.getD_eq_getElem?_getD, hl, Option.getD_some, byteLength_append]
    · rw [List.length_take_of_le (Nat.le_of_lt hlt), List.length_take_of_le (by omega),
        Nat.sub_add_cancel hline, Nat.sub_add_cancel hcolumn]
  · rintro ⟨ls, line, rest, rfl, hls, hline, rfl, rfl⟩
    refine ⟨⟨Nat.le_add_left _ _, Nat.le_add_left _ _, ?_⟩, offset_terminated_append hls hline rest⟩
    obtain ⟨l, ks, hlines⟩ := exists_lines_terminated_append hls hline rest
    refine ⟨line ++ l, ?_, by simp⟩
    rw [hlines]
    simp

/-! ### Positions of boundaries -/

section Boundaries

variable {text : String} {p q : Nat}

/-- Between two boundaries there are characters. -/
theorem exists_between (hp : IsBoundary text p) (hq : IsBoundary text q) (hlt : p < q) :
    ∃ pre between rest, text.toList = pre ++ (between ++ rest) ∧ between ≠ [] ∧
      byteLength pre = p ∧ byteLength (pre ++ between) = q := by
  obtain ⟨pre, rest, htext, rfl⟩ := isBoundary_iff.mp hp
  obtain ⟨pre', rest', htext', rfl⟩ := isBoundary_iff.mp hq
  rcases List.prefix_or_prefix_of_prefix ⟨rest, htext.symm⟩ ⟨rest', htext'.symm⟩ with h | h
  · obtain ⟨between, rfl⟩ := h
    refine ⟨pre, between, rest', by rw [htext', List.append_assoc], ?_, rfl, rfl⟩
    rintro rfl
    simp at hlt
  · obtain ⟨between, rfl⟩ := h
    rw [byteLength_append] at hlt
    omega

/-- A boundary further on has a later position. -/
theorem ofOffset_lt_ofOffset (hp : IsBoundary text p) (hq : IsBoundary text q) (hlt : p < q) :
    ofOffset text.toList p < ofOffset text.toList q := by
  obtain ⟨pre, between, rest, htext, hne, rfl, rfl⟩ := exists_between hp hq hlt
  have hfirst : ofOffset text.toList (byteLength pre) = after pre := by
    rw [htext, ofOffset_eq_after]
  have hsecond : ofOffset text.toList (byteLength (pre ++ between)) =
      between.foldl next (after pre) := by
    rw [htext, ← List.append_assoc, ofOffset_eq_after, after_append]
  rw [hfirst, hsecond]
  exact lt_foldl_next _ hne

end Boundaries

/-- **Lines and columns are exact, and offsets can be found again from them.** For every text:

* The position of a boundary counts the line feeds before it, be it in characters or in bytes, and
  the characters since the last of them, or since the start of the text if there is none.
* The boundaries with their positions are just the places in the lines of the text with their
  offsets. So the offset of a boundary is that of its line and column.
* A boundary further on has a later position.
* An offset beyond the end of the text has the position of the end. -/
theorem ofOffset_invertible (text : String) :
    (∀ p, IsBoundary text p →
      ∃ start line rest, text.toList = start ++ (line ++ rest) ∧ byteLength (start ++ line) = p ∧
        (start = [] ∨ start.getLast? = some '\n') ∧ '\n' ∉ line ∧
        ofOffset text.toList p = ⟨start.count '\n' + 1, line.length + 1⟩ ∧
        ((bytes text).take p).count 0x0a = start.count '\n') ∧
    (∀ p q, IsBoundary text p ∧ ofOffset text.toList p = q ↔
      q.IsIn text.toList ∧ q.offset text.toList = p) ∧
    (∀ p q, IsBoundary text p → IsBoundary text q → p < q →
      ofOffset text.toList p < ofOffset text.toList q) ∧
    ∀ p, byteLength text.toList < p →
      ofOffset text.toList p = ofOffset text.toList (byteLength text.toList) := by
  refine ⟨fun p hp => ?_, fun p q => ?_, fun p q => ofOffset_lt_ofOffset,
    fun p hp => ofOffset_of_byteLength_le (Nat.le_of_lt hp)⟩
  · obtain ⟨ls, line, rest, htext, hls, hline, rfl, hq⟩ := ofOffset_eq_iff_marks.mp ⟨hp, rfl⟩
    refine ⟨terminated ls, line, rest, htext, rfl, terminated_eq_nil_or ls, hline, ?_, ?_⟩
    · rw [hq, count_terminated hls]
    · rw [← List.append_assoc] at htext
      rw [count_take_bytes htext, List.count_append, List.count_eq_zero.mpr hline, Nat.add_zero]
  · rw [ofOffset_eq_iff_marks, offset_eq_iff_marks]

/-- Characters of two bytes at both ends, and an empty line. -/
def mixedLines : String := "é\n\nzß"

/-- Offset 6 lies inside the last character. -/
theorem ofOffset_mixedLines_invertible :
    (IsBoundary mixedLines 4 ∧ IsBoundary mixedLines 5 ∧ ¬IsBoundary mixedLines 6) ∧
      ofOffset mixedLines.toList 5 = ⟨3, 2⟩ ∧ offset mixedLines.toList ⟨3, 2⟩ = 5 ∧
      ofOffset mixedLines.toList 4 < ofOffset mixedLines.toList 5 ∧
      ofOffset mixedLines.toList 100 = ofOffset mixedLines.toList 7 := by
  have hboundary : IsBoundary mixedLines 4 ∧ IsBoundary mixedLines 5 ∧ ¬IsBoundary mixedLines 6 := by
    decide
  have hplace : ofOffset mixedLines.toList 5 = ⟨3, 2⟩ := by decide
  obtain ⟨-, hinverse, hincreasing, hbeyond⟩ := ofOffset_invertible mixedLines
  exact ⟨hboundary, hplace, ((hinverse 5 _).mp ⟨hboundary.2.1, hplace⟩).2,
    hincreasing 4 5 hboundary.1 hboundary.2.1 (by decide), hbeyond 100 (by decide)⟩

end Text.Position

end Blockscript
