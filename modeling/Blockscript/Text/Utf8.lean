/-!
# Byte offsets in text

Every offset of the library counts bytes of the UTF-8 form, while text is read character by
character from a `List Char`. This module holds the two bridges between the views.

## Main definitions

* `Text.byteLength` : how many bytes a text occupies.
* `Text.dropBytes?` : the text from a byte offset on, if the offset is a character boundary.

## Main results

* `Text.dropBytes?_eq_some_iff` : an offset is a boundary exactly if some first part of the text
  has that many bytes, and then what follows that part is returned.
-/

namespace Blockscript.Text

/-- The number of bytes of a text in UTF-8. -/
def byteLength (cs : List Char) : Nat :=
  cs.foldr (fun c n => c.utf8Size + n) 0

@[simp] theorem byteLength_nil : byteLength [] = 0 := rfl

@[simp] theorem byteLength_cons (c : Char) (cs : List Char) :
    byteLength (c :: cs) = c.utf8Size + byteLength cs := rfl

@[simp] theorem byteLength_append (cs ds : List Char) :
    byteLength (cs ++ ds) = byteLength cs + byteLength ds := by
  induction cs with
  | nil => simp
  | cons c cs ih => rw [List.cons_append, byteLength_cons, byteLength_cons, ih, Nat.add_assoc]

/-- The text from byte offset `n` on. There is none if `n` lies beyond the end or inside a
character. -/
def dropBytes? : Nat → List Char → Option (List Char)
  | 0, cs => some cs
  | _ + 1, [] => none
  | n + 1, c :: cs =>
    if c.utf8Size ≤ n + 1 then dropBytes? (n + 1 - c.utf8Size) cs else none

theorem dropBytes?_byteLength_append (pre post : List Char) :
    dropBytes? (byteLength pre) (pre ++ post) = some post := by
  induction pre with
  | nil => simp [dropBytes?]
  | cons c cs ih =>
    have hc := c.utf8Size_pos
    obtain ⟨n, hn⟩ : ∃ n, byteLength (c :: cs) = n + 1 := ⟨byteLength (c :: cs) - 1, by simp; omega⟩
    rw [hn, List.cons_append, dropBytes?, if_pos (by simp at hn; omega)]
    have : n + 1 - c.utf8Size = byteLength cs := by simp at hn; omega
    rw [this, ih]

/-- An offset is a character boundary exactly if a first part of the text has that many bytes. -/
theorem dropBytes?_eq_some_iff {n : Nat} {cs post : List Char} :
    dropBytes? n cs = some post ↔ ∃ pre, cs = pre ++ post ∧ byteLength pre = n := by
  constructor
  · intro h
    fun_induction dropBytes? n cs with
    | case1 cs => exact ⟨[], by simpa using h, rfl⟩
    | case2 => simp at h
    | case3 n c cs hc ih =>
      obtain ⟨pre, rfl, hpre⟩ := ih h
      exact ⟨c :: pre, rfl, by simp; omega⟩
    | case4 => simp at h
  · rintro ⟨pre, rfl, rfl⟩
    exact dropBytes?_byteLength_append pre post

end Blockscript.Text
