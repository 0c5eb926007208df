import Blockscript.Proofs.Arena

/-!
# The laws of an arena

Whoever has the index of a scope can keep it when the scope is gone, and then it may be the index of
another scope. So it is not clear that an arena stays in order, whatever is done with it: a scope
that lies in itself would send a look-up round in a circle, and one that lies in a dead scope would
send it nowhere. One condition is enough. A scope must be opened inside one that is alive at that
moment; names may be bound in, and scopes dropped from, any index at all.

## The shape of the argument

What an operation has to keep is only that outer scopes are older (`Scopes.Chained`). The bindings
do not matter, so closures may have captured anything. From there on a look-up goes along the path
to the root, and each operation is seen to change that path, or what is bound on it, in one place at
most.

## Main definitions

* `Scopes.Operation` : what can be done with an arena.
* `Scopes.after`, `Scopes.Admissible` : a sequence of operations, and when it may be carried out.
* `Scopes.BindsFirst` : a scope lies on a path, and none before it binds the name.
* `Scopes.Lawful` : the laws.

## Main results

* `Scopes.Chained.step`, `Scopes.Chained.after` : what one operation keeps, and what all of them
  keep.
* `Scopes.Chained.lookup_dropFrom`, `Scopes.Chained.lookup_insert` : look-ups after an operation.
* `Scopes.after_lawful` : the headline.
-/

namespace Blockscript.Scopes

/-! ### Sequences of operations -/

/-- What can be done with an arena. -/
inductive Operation where
  /-- Opens a scope. -/
  | push (outer : Scope.Index) (bindings : Bindings)
  /-- Binds a name in a scope. -/
  | insert (id : Scope.Index) (name : String) (b : Binding)
  /-- Drops a scope and all later ones. -/
  | dropFrom (id : Scope.Index)

/-- The arena after an operation. To bind a name in a dead scope is an error, and has no effect. -/
def step (a : Scopes) : Operation → Scopes
  | .push outer bindings => (a.push outer bindings).2
  | .insert id name b => (a.insert id name b).toOption.getD a
  | .dropFrom id => a.dropFrom id

/-- The operation may be carried out: a scope is opened inside a live one. -/
def Permits (a : Scopes) : Operation → Prop
  | .push outer _ => outer < a.size
  | .insert .. => True
  | .dropFrom _ => True

/-- The arena after some operations, one after the other. -/
def after (a : Scopes) (ops : List Operation) : Scopes :=
  ops.foldl step a

/-- Each of the operations may be carried out when its turn comes. -/
def Admissible (a : Scopes) : List Operation → Prop
  | [] => True
  | op :: ops => a.Permits op ∧ (a.step op).Admissible ops

instance (a : Scopes) : (op : Operation) → Decidable (a.Permits op)
  | .push outer _ => inferInstanceAs (Decidable (outer < a.size))
  | .insert .. => .isTrue trivial
  | .dropFrom _ => .isTrue trivial

instance Admissible.decidable (a : Scopes) : (ops : List Operation) → Decidable (a.Admissible ops)
  | [] => .isTrue trivial
  | op :: ops =>
    have : Decidable ((a.step op).Admissible ops) := Admissible.decidable _ ops
    inferInstanceAs (Decidable (a.Permits op ∧ (a.step op).Admissible ops))

variable {a : Scopes} {op : Operation} {ops : List Operation} {i id : Scope.Index}
  {path : List Scope.Index} {name : String} {b : Binding}

/-! ### Steps and runs -/

theorem Chained.step (h : a.Chained) (hop : a.Permits op) : (a.step op).Chained := by
  cases op with
  | push outer bindings => exact h.push hop bindings
  | insert id name b =>
    show ((a.insert id name b).toOption.getD a).Chained
    cases hins : a.insert id name b with
    | error e => exact h
    | ok a' => exact h.insert hins
  | dropFrom id => exact h.dropFrom id

theorem Chained.after (h : a.Chained) (hops : a.Admissible ops) : (a.after ops).Chained := by
  induction ops generalizing a with
  | nil => exact h
  | cons op ops ih => exact ih (h.step hops.1) hops.2

/-! ### Look-ups after scopes are dropped -/

theorem lookup_of_size_le (h : a.size ≤ i) (name : String) : a.lookup i name = .error ⟨i⟩ := by
  have hnone : a.frames[i]? = none := Array.getElem?_eq_none h
  rw [lookup, lookupWithin, hnone]

/-- What names stand for in the scopes that remain does not change, and the others are dead. -/
theorem Chained.lookup_dropFrom (h : a.Chained) (id i : Scope.Index) (name : String) :
    (a.dropFrom id).lookup i name = if i < max id 1 then a.lookup i name else .error ⟨i⟩ := by
  split
  · next hi =>
    by_cases hlive : i < a.size
    · refine h.lookup_congr hlive (fun k hk => ?_) name
      rw [getElem?_dropFrom, if_pos (Nat.lt_of_le_of_lt hk hi)]
    · have hdead : a.size ≤ i := Nat.le_of_not_lt hlive
      have hsize : (a.dropFrom id).size ≤ a.size := a.size_dropFrom id ▸ Nat.min_le_right _ _
      rw [lookup_of_size_le hdead, lookup_of_size_le (Nat.le_trans hsize hdead)]
  · next hi =>
    have hsize : (a.dropFrom id).size ≤ max id 1 := a.size_dropFrom id ▸ Nat.min_le_left _ _
    exact lookup_of_size_le (Nat.le_trans hsize (Nat.le_of_not_lt hi)) name

/-! ### Look-ups after a name is bound

The scopes on the way to the root are as before, and only one of them binds something else. -/

/-- What a name is bound to in a scope itself. -/
def bound (a : Scopes) (name : String) (i : Scope.Index) : Option Binding :=
  a.frames[i]?.bind (·.bindings.find? name)

/-- The scope `id` lies on the path, and no scope before it binds the name. -/
def BindsFirst (a : Scopes) (name : String) (id : Scope.Index) (path : List Scope.Index) : Prop :=
  ∃ inner outer, path = inner ++ id :: outer ∧ ∀ k ∈ inner, a.bound name k = none

theorem bindsFirst_cons {k : Scope.Index} :
    a.BindsFirst name id (k :: path) ↔
      k = id ∨ a.bound name k = none ∧ a.BindsFirst name id path := by
  constructor
  · rintro ⟨inner, outer, hpath, hnone⟩
    cases inner with
    | nil => exact .inl (List.cons.inj hpath).1
    | cons l inner =>
      obtain ⟨rfl, rfl⟩ := List.cons.inj hpath
      obtain ⟨hk, hinner⟩ := List.forall_mem_cons.mp hnone
      exact .inr ⟨hk, inner, outer, rfl, hinner⟩
  · rintro (rfl | ⟨hk, inner, outer, rfl, hinner⟩)
    · exact ⟨[], path, rfl, by simp⟩
    · exact ⟨k :: inner, outer, rfl, List.forall_mem_cons.mpr ⟨hk, hinner⟩⟩

theorem nearest_cons (a : Scopes) (name : String) (k : Scope.Index) (path : List Scope.Index) :
    a.nearest name (k :: path) = (a.bound name k).or (a.nearest name path) := by
  rw [nearest, List.findSome?_cons, ← bound]
  cases a.bound name k <;> rfl

theorem bound_of_insert {a' : Scopes} (h : a.insert id name b = .ok a') (other : String)
    (k : Scope.Index) :
    a'.bound other k = if k = id ∧ other = name then some b else a.bound other k := by
  obtain ⟨f, hf⟩ := getElem?_eq_some_iff_lt.mpr (lt_size_of_insert h)
  rw [bound, getElem?_of_insert h]
  by_cases hk : k = id
  · subst hk
    simp [bound, hf, Bindings.find?_insert]
  · simp [bound, hk]

/-- On a path, the new binding is the first one or does not count. -/
theorem nearest_of_insert {a' : Scopes} (h : a.insert id name b = .ok a') (other : String)
    (path : List Scope.Index) :
    (other = name ∧ a.BindsFirst name id path → a'.nearest other path = some b) ∧
      (¬(other = name ∧ a.BindsFirst name id path) →
        a'.nearest other path = a.nearest other path) := by
  induction path with
  | nil => simp [BindsFirst, nearest]
  | cons k path ih =>
    rw [nearest_cons, nearest_cons, bound_of_insert h, bindsFirst_cons]
    by_cases hk : k = id ∧ other = name
    · simp [hk]
    · rw [if_neg hk]
      -- The scope binds what it bound before, so if anything then not the new binding.
      cases hbound : a.bound other k with
      | some c =>
        refine ⟨?_, fun _ => rfl⟩
        rintro ⟨rfl, hkid | ⟨hnone, -⟩⟩
        · exact absurd ⟨hkid, rfl⟩ hk
        · exact absurd (hbound.symm.trans hnone) (by simp)
      | none =>
        obtain ⟨ihfirst, ihother⟩ := ih
        constructor
        · rintro ⟨rfl, hkid | ⟨-, hfirst⟩⟩
          · exact absurd ⟨hkid, rfl⟩ hk
          · exact ihfirst ⟨rfl, hfirst⟩
        · intro hnot
          refine ihother ?_
          rintro ⟨rfl, hfirst⟩
          exact hnot ⟨rfl, .inr ⟨hbound, hfirst⟩⟩

theorem Path.insert {a' : Scopes} (h : a.Path i path) (hins : a.insert id name b = .ok a') :
    a'.Path i path := by
  have hframe {k : Scope.Index} {f : Scope} (hf : a.frames[k]? = some f) :
      ∃ g, a'.frames[k]? = some g ∧ g.outer = f.outer := by
    have hmap := map_outer_of_insert hins k
    rw [hf] at hmap
    exact Option.map_eq_some_iff.mp hmap
  induction h with
  | root hf ho =>
    obtain ⟨g, hg, houter⟩ := hframe hf
    exact .root hg (houter.trans ho)
  | outward hf ho _ ih =>
    obtain ⟨g, hg, houter⟩ := hframe hf
    exact .outward hg (houter.trans ho) ih

/-- A name that is bound in a scope stands for something else where the scope is the first on the
way to the root that binds it, and nowhere else. -/
theorem Chained.lookup_insert (h : a.Chained) {a' : Scopes} (hins : a.insert id name b = .ok a')
    (hpath : a.Path i path) (other : String) :
    (other = name ∧ a.BindsFirst name id path → a'.lookup i other = .ok (some b)) ∧
      (¬(other = name ∧ a.BindsFirst name id path) → a'.lookup i other = a.lookup i other) := by
  obtain ⟨hfirst, hother⟩ := nearest_of_insert hins other path
  rw [(h.insert hins).lookup_eq_nearest (hpath.insert hins), h.lookup_eq_nearest hpath]
  exact ⟨fun hnew => by rw [hfirst hnew], fun hold => by rw [hother hold]⟩

/-! ### The laws -/

/-- What can be relied on in an arena. -/
structure Lawful (a : Scopes) : Prop where
  /-- The root is alive. -/
  size_pos : 0 < a.size
  /-- A scope that lies in another is younger. -/
  outer_lt : ∀ {i o : Scope.Index} {f : Scope}, a.frames[i]? = some f → f.outer = some o → o < i
  /-- Live scopes have a way to the root. A look-up gives the nearest binding on it, and is never cut
  off: to allow it more steps than there are scopes on the way changes nothing. -/
  lookup : ∀ {i : Scope.Index}, i < a.size → ∃ path, a.Path i path ∧ path.length ≤ i + 1 ∧
    ∀ name, a.lookup i name = .ok (a.nearest name path) ∧
      ∀ steps, path.length ≤ steps → a.lookupWithin name steps i = a.lookup i name
  /-- Nothing can be looked up in a scope that is not alive. -/
  lookup_dead : ∀ {i : Scope.Index}, a.size ≤ i → ∀ name, a.lookup i name = .error ⟨i⟩
  /-- Opening a scope changes no look-up in the scopes that were alive. -/
  push : ∀ (outer : Scope.Index) bindings {i : Scope.Index}, i < a.size → ∀ name,
    (a.push outer bindings).2.lookup i name = a.lookup i name
  /-- Of the live scopes, those before the given one are left, and at least the root. Look-ups in them
  are as before. -/
  dropFrom : ∀ id : Scope.Index, (a.dropFrom id).size = min (max id 1) a.size ∧
    ∀ (i : Scope.Index) name, (a.dropFrom id).lookup i name =
      if i < max id 1 then a.lookup i name else .error ⟨i⟩
  /-- Binding a name in a live scope leaves all scopes alive. It changes the look-up of that name from
  where the scope is the first to bind it, and no other look-up. -/
  insert : ∀ {id : Scope.Index}, id < a.size → ∀ name b, ∃ a', a.insert id name b = .ok a' ∧
    a'.size = a.size ∧ ∀ {i path}, a.Path i path → ∀ other,
      (other = name ∧ a.BindsFirst name id path → a'.lookup i other = .ok (some b)) ∧
      (¬(other = name ∧ a.BindsFirst name id path) → a'.lookup i other = a.lookup i other)
  /-- No name can be bound in a scope that is not alive. -/
  insert_dead : ∀ {id : Scope.Index}, a.size ≤ id → ∀ name b, a.insert id name b = .error ⟨id⟩

theorem Chained.lawful (h : a.Chained) : a.Lawful where
  size_pos := h.size_pos
  outer_lt := h.lt_of_outer_eq
  lookup hi := by
    obtain ⟨path, hpath, hlen, -⟩ := h.exists_path hi
    refine ⟨path, hpath, hlen, fun name => ⟨h.lookup_eq_nearest hpath name, fun steps hsteps => ?_⟩⟩
    rw [hpath.lookupWithin_eq name hsteps, h.lookup_eq_nearest hpath]
  lookup_dead := lookup_of_size_le
  push outer bindings _ hi name := h.lookup_push hi outer bindings name
  dropFrom id := ⟨a.size_dropFrom id, h.lookup_dropFrom id⟩
  insert hid name b := by
    obtain ⟨a', hins, hsize, -⟩ := insert_of_lt hid name b
    exact ⟨a', hins, hsize, fun hpath other => h.lookup_insert hins hpath other⟩
  insert_dead hid name b := by
    have hnone := Array.getElem?_eq_none hid
    rw [Scopes.insert, hnone]

/-- **Arenas stay in order.** Begin with a root that binds nothing, and open, drop and bind in any
order, with indices of scopes that may be long gone. If every scope is opened inside one that is
alive at that moment, then at every moment there is a root, outer scopes are older, a look-up from a
live scope ends with the nearest binding on the way to the root, and each further operation changes
the look-ups that it should and no others. -/
theorem after_lawful {ops : List Operation} (h : initial.Admissible ops) :
    (initial.after ops).Lawful :=
  (chained_initial.after h).lawful

/-- Two scopes are dropped, and their indices used again: once when they are dead, and then when they
are those of other scopes. -/
def reuse : List Operation :=
  [.push 0 .empty, .push 1 .empty, .insert 2 "x" (.value (.int 1)), .dropFrom 1,
    .insert 2 "x" (.value (.int 2)), .push 0 .empty, .push 1 .empty,
    .insert 1 "x" (.value (.int 3)), .dropFrom 7, .insert 0 "x" (.value (.int 4))]

theorem after_reuse_lawful : initial.Admissible reuse ∧ (initial.after reuse).Lawful := by
  have hops : initial.Admissible reuse := by decide
  exact ⟨hops, after_lawful hops⟩

end Blockscript.Scopes
