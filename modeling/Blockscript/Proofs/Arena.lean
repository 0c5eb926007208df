import Blockscript.Scope
import Mathlib.Data.Nat.Init

/-!
# Well-formed arenas

All live scopes stand in one array, and a scope refers to others by index: to its outer scope, and
to the scopes that the closures bound in it have captured. This module says when such references
cannot dangle. In a well-formed arena they all point backwards: an outer scope has a smaller index,
and a closure captures no scope younger than the one that binds it.

That is what makes truncation safe. Dropping the youngest scopes removes only scopes to which no
older scope refers, so what is left is well-formed again.

## Main definitions

* `Scopes.Chained` : outer scopes are older.
* `Scopes.WellFormed` : so are, or at least not younger, the scopes that closures have captured.
* `Scopes.Path` : the scopes from one scope outwards to the root.
* `Scopes.nearest` : the first binding of a name on a path.

## Main results

* `Scopes.Chained.push`, `Scopes.Chained.insert`, `Scopes.Chained.dropFrom` : the operations keep
  outer scopes older.
* `Scopes.WellFormed.push`, `Scopes.WellFormed.insert`, `Scopes.WellFormed.dropFrom` : and they keep
  arenas well-formed.
* `Scopes.Chained.exists_path`, `Scopes.Chained.lookup_eq_nearest` : from every live scope there is a
  path to the root, and looking a name up gives the nearest binding on it.
* `Scopes.Chained.lookup_eq` : the same, one scope at a time.
* `Scopes.lookup_rel` : looking a name up in two arenas along corresponding scopes.
* `Scopes.Chained.lookup_push`, `Scopes.Chained.lookup_push_self`,
  `Scopes.Chained.lookup_insert_self` : what names stand for after an operation.
-/

namespace Blockscript

/-! ### The operations, scope by scope -/

namespace Scopes

variable {a : Scopes}

theorem getElem?_eq_some_iff_lt {i : Scope.Index} :
    (∃ f, a.frames[i]? = some f) ↔ i < a.size := by
  constructor
  · rintro ⟨f, hf⟩
    exact (Array.getElem?_eq_some_iff.mp hf).choose
  · intro hi
    exact ⟨_, Array.getElem?_eq_getElem hi⟩

theorem lt_size {i : Scope.Index} {f : Scope} (h : a.frames[i]? = some f) : i < a.size :=
  getElem?_eq_some_iff_lt.mp ⟨f, h⟩

@[simp] theorem push_fst (a : Scopes) (outer : Scope.Index) (bindings : Bindings) :
    (a.push outer bindings).1 = a.size := rfl

@[simp] theorem size_push (a : Scopes) (outer : Scope.Index) (bindings : Bindings) :
    (a.push outer bindings).2.size = a.size + 1 := by
  simp [push, size]

theorem getElem?_push (a : Scopes) (outer : Scope.Index) (bindings : Bindings) (i : Scope.Index) :
    (a.push outer bindings).2.frames[i]? =
      if i = a.size then some ⟨bindings, some outer⟩ else a.frames[i]? := by
  rw [push, Array.getElem?_push]
  rfl

@[simp] theorem size_dropFrom (a : Scopes) (id : Scope.Index) :
    (a.dropFrom id).size = min (max id 1) a.size := by
  simp [dropFrom, size]

theorem getElem?_dropFrom (a : Scopes) (id i : Scope.Index) :
    (a.dropFrom id).frames[i]? = if i < max id 1 then a.frames[i]? else none := by
  by_cases hi : i < a.size
  · have hmin : i < min (max id 1) a.frames.size ↔ i < max id 1 :=
      ⟨fun h => Nat.lt_of_lt_of_le h (Nat.min_le_left _ _), fun h => Nat.lt_min.mpr ⟨h, hi⟩⟩
    simp [dropFrom, Array.getElem?_extract, hmin]
  · have hnone : a.frames[i]? = none := Array.getElem?_eq_none (Nat.le_of_not_lt hi)
    simp [dropFrom, Array.getElem?_extract, hnone]

/-- Binding a name affects the scope in which it is bound, and no other. -/
theorem getElem?_of_insert {a' : Scopes} {id : Scope.Index} {name : String} {b : Binding}
    (h : a.insert id name b = .ok a') (i : Nat) :
    a'.frames[i]? =
      if i = id then
        a.frames[id]?.map fun f => { f with bindings := f.bindings.insert name b }
      else a.frames[i]? := by
  rw [insert] at h
  cases hf : a.frames[id]? with
  | none => simp [hf] at h
  | some f =>
    simp only [hf, Except.ok.injEq] at h
    subst h
    rw [Array.getElem?_setIfInBounds]
    by_cases hi : i = id
    · subst hi
      rw [if_pos rfl, if_pos (show i < a.frames.size from lt_size hf), if_pos rfl]
      rfl
    · rw [if_neg (Ne.symm hi), if_neg hi]

/-- Binding a name in a live scope succeeds, and affects that scope only. -/
theorem insert_of_lt {id : Scope.Index} (h : id < a.size) (name : String) (b : Binding) :
    ∃ a', a.insert id name b = .ok a' ∧ a'.size = a.size ∧ ∀ i : Nat, a'.frames[i]? =
      if i = id then
        a.frames[id]?.map fun f => { f with bindings := f.bindings.insert name b }
      else a.frames[i]? := by
  obtain ⟨f, hf⟩ := getElem?_eq_some_iff_lt.mpr h
  have hinsert : a.insert id name b =
      .ok ⟨a.frames.setIfInBounds id { f with bindings := f.bindings.insert name b }⟩ := by
    rw [insert, hf]
  exact ⟨_, hinsert, by simp [size], getElem?_of_insert hinsert⟩

end Scopes

/-! ### References that point backwards -/

/-- There is a root, and every scope lies in an older one, the root in none. What is bound in the
scopes does not matter. -/
structure Scopes.Chained (a : Scopes) : Prop where
  /-- The root is alive. -/
  size_pos : 0 < a.size
  /-- The root has no outer scope. -/
  outer_root : ∀ f, a.frames[Scope.Index.root]? = some f → f.outer = none
  /-- Every other scope has one, and it is older. -/
  outer_lt : ∀ (i : Scope.Index) f, a.frames[i]? = some f → 1 ≤ i → ∃ o, f.outer = some o ∧ o < i

/-- Outer scopes are older, and no scope refers to a younger one by what it binds either. Blocks
without parameters are never bound as such. -/
structure Scopes.WellFormed (a : Scopes) : Prop extends Scopes.Chained a where
  /-- The closures that a scope binds have captured no younger scope, and expect arguments. -/
  captured_le : ∀ (i : Scope.Index) f, a.frames[i]? = some f → ∀ name c,
    f.bindings.find? name = some (.block c) → c.scope ≤ i ∧ 1 ≤ c.arity

namespace Scopes

variable {a : Scopes}

/-- At first there is only the root, and it binds nothing. -/
theorem eq_of_getElem?_initial {i : Scope.Index} {f : Scope}
    (h : initial.frames[i]? = some f) : i = .root ∧ f = ⟨.empty, none⟩ := by
  have hi : i = 0 := by
    have := lt_size h
    simpa [initial, size] using this
  subst hi
  exact ⟨rfl, by simpa [initial] using h.symm⟩

/-! ### Outer scopes stay older -/

/-- An outer scope is older. -/
theorem Chained.lt_of_outer_eq (h : a.Chained) {i o : Scope.Index} {f : Scope}
    (hf : a.frames[i]? = some f) (ho : f.outer = some o) : o < i := by
  rcases Nat.eq_zero_or_pos i with rfl | hpos
  · exact absurd (ho.symm.trans (h.outer_root f hf)) (by simp)
  · obtain ⟨o', ho', hlt⟩ := h.outer_lt i f hf hpos
    obtain rfl := Option.some.inj (ho.symm.trans ho')
    exact hlt

theorem chained_initial : initial.Chained := by
  refine ⟨by decide, fun f hf => ?_, fun i f hf hi => ?_⟩
  · rw [(eq_of_getElem?_initial hf).2]
  · rw [(eq_of_getElem?_initial hf).1] at hi
    exact absurd hi (by decide)

theorem Chained.push (h : a.Chained) {outer : Scope.Index} (ho : outer < a.size)
    (bindings : Bindings) : (a.push outer bindings).2.Chained := by
  refine ⟨by simp, fun f hf => ?_, fun i f hf hi => ?_⟩
  · have hroot : Scope.Index.root ≠ a.size := Nat.ne_of_lt h.size_pos
    rw [getElem?_push, if_neg hroot] at hf
    exact h.outer_root f hf
  · rw [getElem?_push] at hf
    split at hf
    · next heq =>
      cases hf
      exact ⟨outer, rfl, heq ▸ ho⟩
    · exact h.outer_lt i f hf hi

/-- The scopes that are left are as they were. -/
theorem getElem?_of_dropFrom {id i : Scope.Index} {f : Scope}
    (hf : (a.dropFrom id).frames[i]? = some f) : a.frames[i]? = some f := by
  rw [getElem?_dropFrom] at hf
  split at hf
  · exact hf
  · cases hf

theorem Chained.dropFrom (h : a.Chained) (id : Scope.Index) : (a.dropFrom id).Chained := by
  have hpos := h.size_pos
  refine ⟨by rw [size_dropFrom]; omega, fun f hf => ?_, fun i f hf => ?_⟩
  · exact h.outer_root f (getElem?_of_dropFrom hf)
  · exact h.outer_lt i f (getElem?_of_dropFrom hf)

section Insert

variable {a' : Scopes} {id : Scope.Index} {name : String} {b : Binding}

/-- Binding a name does not move any scope. -/
theorem map_outer_of_insert (h : a.insert id name b = .ok a') (k : Scope.Index) :
    a'.frames[k]?.map Scope.outer = a.frames[k]?.map Scope.outer := by
  rw [getElem?_of_insert h]
  by_cases hk : k = id
  · rw [if_pos hk, Option.map_map, hk]
    rfl
  · rw [if_neg hk]

theorem lt_size_of_insert (h : a.insert id name b = .ok a') : id < a.size := by
  cases hf : a.frames[id]? with
  | none => simp [insert, hf] at h
  | some f => exact lt_size hf

theorem Chained.insert (h : a.Chained) (hins : a.insert id name b = .ok a') : a'.Chained := by
  obtain ⟨a'', hins', hsize, -⟩ := insert_of_lt (lt_size_of_insert hins) name b
  obtain rfl := Except.ok.inj (hins.symm.trans hins')
  have hframe {i : Scope.Index} {f : Scope} (hf : a'.frames[i]? = some f) :
      ∃ g, a.frames[i]? = some g ∧ g.outer = f.outer := by
    have hmap := map_outer_of_insert hins i
    rw [hf] at hmap
    exact Option.map_eq_some_iff.mp hmap.symm
  refine ⟨hsize ▸ h.size_pos, fun f hf => ?_, fun i f hf hi => ?_⟩
  · obtain ⟨g, hg, houter⟩ := hframe hf
    exact houter ▸ h.outer_root g hg
  · obtain ⟨g, hg, houter⟩ := hframe hf
    exact houter ▸ h.outer_lt i g hg hi

end Insert

/-! ### Closures stay over scopes that are not younger -/

theorem wellFormed_initial : initial.WellFormed := by
  refine ⟨chained_initial, fun i f hf name c hc => ?_⟩
  rw [(eq_of_getElem?_initial hf).2] at hc
  simp at hc

theorem WellFormed.push (h : a.WellFormed) {outer : Scope.Index} (ho : outer < a.size)
    {bindings : Bindings}
    (hb : ∀ name c, bindings.find? name = some (.block c) → c.scope < a.size ∧ 1 ≤ c.arity) :
    (a.push outer bindings).2.WellFormed := by
  refine ⟨h.toChained.push ho bindings, fun i f hf name c hc => ?_⟩
  rw [getElem?_push] at hf
  split at hf
  · next hi =>
    cases hf
    obtain ⟨hscope, harity⟩ := hb name c hc
    exact ⟨hi ▸ Nat.le_of_lt hscope, harity⟩
  · exact h.captured_le i f hf name c hc

theorem WellFormed.dropFrom (h : a.WellFormed) (id : Scope.Index) :
    (a.dropFrom id).WellFormed :=
  ⟨h.toChained.dropFrom id, fun i f hf => h.captured_le i f (getElem?_of_dropFrom hf)⟩

theorem WellFormed.insert (h : a.WellFormed) {id : Scope.Index} (hid : id < a.size)
    (name : String) {b : Binding} (hb : ∀ c, b = .block c → c.scope ≤ id ∧ 1 ≤ c.arity) :
    ∃ a', a.insert id name b = .ok a' ∧ a'.size = a.size ∧ a'.WellFormed := by
  obtain ⟨a', hins, hsize, hframes⟩ := insert_of_lt hid name b
  refine ⟨a', hins, hsize, h.toChained.insert hins, fun i f hf other c hc => ?_⟩
  rw [hframes] at hf
  split at hf
  · next hi =>
    subst hi
    obtain ⟨g, hg, rfl⟩ := Option.map_eq_some_iff.mp hf
    rw [Bindings.find?_insert] at hc
    split at hc
    · exact hb c (Option.some.inj hc)
    · exact h.captured_le i g hg other c hc
  · exact h.captured_le i f hf other c hc

/-! ### The way to the root -/

/-- The scopes that a look-up in the given scope goes through if it finds nothing: the scope itself,
the one in which it lies, and so on up to the root. -/
inductive Path (a : Scopes) : Scope.Index → List Scope.Index → Prop where
  | root {f : Scope} (hf : a.frames[Scope.Index.root]? = some f) (ho : f.outer = none) :
    Path a .root [.root]
  | outward {i o : Scope.Index} {f : Scope} {path : List Scope.Index}
    (hf : a.frames[i]? = some f) (ho : f.outer = some o) (hpath : Path a o path) :
    Path a i (i :: path)

/-- The first binding of a name on a path. -/
def nearest (a : Scopes) (name : String) (path : List Scope.Index) : Option Binding :=
  path.findSome? fun i => a.frames[i]?.bind (·.bindings.find? name)

theorem Path.live {i : Scope.Index} {path : List Scope.Index} (h : a.Path i path) : i < a.size := by
  cases h with
  | root hf _ => exact lt_size hf
  | outward hf _ _ => exact lt_size hf

/-- There is only one way to the root. -/
theorem Path.unique {i : Scope.Index} {path path' : List Scope.Index} (h : a.Path i path)
    (h' : a.Path i path') : path = path' := by
  induction h generalizing path' with
  | root hf ho =>
    cases h' with
    | root => rfl
    | outward hf' ho' _ =>
      obtain rfl := Option.some.inj (hf.symm.trans hf')
      exact absurd (ho.symm.trans ho') (by simp)
  | outward hf ho _ ih =>
    cases h' with
    | root hf' ho' =>
      obtain rfl := Option.some.inj (hf.symm.trans hf')
      exact absurd (ho'.symm.trans ho) (by simp)
    | outward hf' ho' hrest =>
      obtain rfl := Option.some.inj (hf.symm.trans hf')
      obtain rfl := Option.some.inj (ho.symm.trans ho')
      rw [ih hrest]

theorem Path.lookupWithin_eq {i : Scope.Index} {path : List Scope.Index} (h : a.Path i path)
    (name : String) {steps : Nat} (hsteps : path.length ≤ steps) :
    a.lookupWithin name steps i = .ok (a.nearest name path) := by
  induction h generalizing steps with
  | @root f hf ho =>
    obtain ⟨steps, rfl⟩ : ∃ n, steps = n + 1 := ⟨steps - 1, by simp at hsteps; omega⟩
    rw [lookupWithin, hf]
    cases hb : f.bindings.find? name <;> simp [nearest, hf, hb, ho]
  | @outward i o f path hf ho _ ih =>
    rw [List.length_cons] at hsteps
    obtain ⟨steps, rfl⟩ : ∃ n, steps = n + 1 := ⟨steps - 1, by omega⟩
    rw [lookupWithin, hf]
    cases hb : f.bindings.find? name with
    | some b => simp [nearest, hf, hb]
    | none => simpa [nearest, hf, hb, ho] using ih (by omega)

theorem exists_of_nearest_eq_some {name : String} {path : List Scope.Index} {b : Binding}
    (h : a.nearest name path = some b) :
    ∃ (k : Scope.Index) (f : Scope), k ∈ path ∧ a.frames[k]? = some f ∧
      f.bindings.find? name = some b := by
  obtain ⟨k, hk, hfound⟩ := List.exists_of_findSome?_eq_some h
  obtain ⟨f, hf, hb⟩ := Option.bind_eq_some_iff.mp hfound
  exact ⟨k, f, hk, hf, hb⟩

/-- **Every look-up ends at the root.** The path visits smaller and smaller indices, so it is no
longer than the index at which it starts allows. -/
theorem Chained.exists_path (h : a.Chained) {i : Scope.Index} (hi : i < a.size) :
    ∃ path, a.Path i path ∧ path.length ≤ i + 1 ∧ ∀ k ∈ path, k ≤ i := by
  induction i using Nat.strong_induction_on with
  | _ i ih =>
    obtain ⟨f, hf⟩ := getElem?_eq_some_iff_lt.mpr hi
    rcases Nat.eq_zero_or_pos i with rfl | hpos
    · exact ⟨[.root], .root hf (h.outer_root f hf), by simp, by simp [Scope.Index.root]⟩
    · obtain ⟨o, ho, hlt⟩ := h.outer_lt i f hf hpos
      obtain ⟨path, hpath, hlen, hle⟩ := ih o hlt (Nat.lt_trans hlt hi)
      refine ⟨i :: path, .outward hf ho hpath, ?_, fun k hk => ?_⟩
      · exact Nat.succ_le_succ (Nat.le_trans hlen hlt)
      · rcases List.mem_cons.mp hk with rfl | hk
        · exact Nat.le_refl _
        · exact Nat.le_trans (hle k hk) (Nat.le_of_lt hlt)

/-- A name stands for the nearest binding on the way to the root, or for nothing if there is
none. -/
theorem Chained.lookup_eq_nearest (h : a.Chained) {i : Scope.Index} {path : List Scope.Index}
    (hpath : a.Path i path) (name : String) : a.lookup i name = .ok (a.nearest name path) := by
  obtain ⟨path', hpath', hlen, -⟩ := h.exists_path hpath.live
  obtain rfl := hpath.unique hpath'
  exact hpath.lookupWithin_eq name (Nat.le_trans hlen (Nat.succ_le_succ (Nat.le_of_lt hpath.live)))

/-- In a well-formed arena, a closure found that way has moreover captured a scope at most as young
as the one it was looked up in. -/
theorem WellFormed.lookup_eq_nearest (h : a.WellFormed) {i : Scope.Index} (hi : i < a.size) :
    ∃ path, a.Path i path ∧ ∀ name, a.lookup i name = .ok (a.nearest name path) ∧
      ∀ c, a.nearest name path = some (.block c) → c.scope ≤ i ∧ 1 ≤ c.arity := by
  obtain ⟨path, hpath, -, hle⟩ := h.exists_path hi
  refine ⟨path, hpath, fun name => ⟨h.toChained.lookup_eq_nearest hpath name, fun c hc => ?_⟩⟩
  obtain ⟨k, f, hk, hf, hbound⟩ := exists_of_nearest_eq_some hc
  obtain ⟨hscope, harity⟩ := h.captured_le k f hf name c hbound
  exact ⟨Nat.le_trans hscope (hle k hk), harity⟩

/-- A closure that a name stands for is over a live scope, and expects arguments. -/
theorem WellFormed.live_of_lookup (h : a.WellFormed) {i : Scope.Index} (hi : i < a.size)
    {name : String} {c : Closure} (hc : a.lookup i name = .ok (some (.block c))) :
    c.scope < a.size ∧ 0 < c.arity := by
  obtain ⟨path, -, hpath⟩ := h.lookup_eq_nearest hi
  obtain ⟨hlookup, hclosure⟩ := hpath name
  obtain ⟨hscope, harity⟩ := hclosure c (Except.ok.inj (hlookup.symm.trans hc))
  exact ⟨Nat.lt_of_le_of_lt hscope hi, harity⟩

/-- What a look-up finds is bound in a live scope that is no younger. -/
theorem Chained.exists_frame_of_lookup (h : a.Chained) {i : Scope.Index} (hi : i < a.size)
    {name : String} {b : Binding} (hb : a.lookup i name = .ok (some b)) :
    ∃ (k : Scope.Index) (f : Scope), k ≤ i ∧ a.frames[k]? = some f ∧
      f.bindings.find? name = some b := by
  obtain ⟨path, hpath, -, hle⟩ := h.exists_path hi
  rw [h.lookup_eq_nearest hpath] at hb
  obtain ⟨k, f, hk, hf, hbound⟩ := exists_of_nearest_eq_some (Except.ok.inj hb)
  exact ⟨k, f, hle k hk, hf, hbound⟩

/-- A look-up, one step at a time: the scope itself, then the one around it. -/
theorem Chained.lookup_eq (h : a.Chained) {i : Scope.Index} {f : Scope}
    (hf : a.frames[i]? = some f) (name : String) :
    a.lookup i name =
      match f.bindings.find? name, f.outer with
      | some b, _ => .ok (some b)
      | none, some o => a.lookup o name
      | none, none => .ok none := by
  obtain ⟨path, hpath, hlen, -⟩ := h.exists_path (lt_size hf)
  have hi := lt_size hf
  rw [lookup, lookupWithin, hf]
  dsimp only
  cases hpath with
  | root hf' ho =>
    obtain rfl := Option.some.inj (hf.symm.trans hf')
    rw [ho]
    cases f.bindings.find? name <;> rfl
  | @outward _ o f' rest hf' ho hrest =>
    obtain rfl := Option.some.inj (hf.symm.trans hf')
    have hshort : rest.length ≤ a.size := by
      rw [List.length_cons] at hlen
      exact Nat.le_trans (Nat.le_of_succ_le_succ hlen) (Nat.le_of_lt hi)
    rw [ho]
    cases f.bindings.find? name with
    | some b => rfl
    | none =>
      show a.lookupWithin name a.size o = a.lookup o name
      rw [lookup, hrest.lookupWithin_eq name hshort,
        hrest.lookupWithin_eq name (Nat.le_succ_of_le hshort)]

/-! ### The same walk in two arenas -/

/-- **Parallel look-up.** Two walks outwards that go through corresponding scopes end alike, where
what one finds in a scope is related to what the other finds in the scope that corresponds to it. -/
theorem lookup_rel {a a' : Scopes} {name : String} {same : Scope.Index → Scope.Index → Prop}
    {T : Binding → Binding → Prop}
    (hframe : ∀ {i j : Nat}, same i j → ∃ f g, a.frames[i]? = some f ∧ a'.frames[j]? = some g ∧
      Option.Rel T (f.bindings.find? name) (g.bindings.find? name) ∧
      Option.Rel (fun k l => (k < i ∧ l < j) ∧ same k l) f.outer g.outer)
    {i j : Nat} (hij : same i j) :
    ∃ b c, a.lookup i name = .ok b ∧ a'.lookup j name = .ok c ∧ Option.Rel T b c := by
  -- The number of steps left is above the index on each side, since outer scopes are older.
  suffices key : ∀ m n : Nat, i < m → j < n → ∃ b c, a.lookupWithin name m i = .ok b ∧
      a'.lookupWithin name n j = .ok c ∧ Option.Rel T b c by
    obtain ⟨f, g, hf, hg, -⟩ := hframe hij
    exact key _ _ (Nat.lt_succ_of_lt (lt_size hf)) (Nat.lt_succ_of_lt (lt_size hg))
  induction i using Nat.strong_induction_on generalizing j with
  | _ i ih =>
    intro m n hm hn
    obtain ⟨f, g, hf, hg, hfound, houter⟩ := hframe hij
    obtain ⟨m, rfl⟩ : ∃ k, m = k + 1 := ⟨m - 1, by omega⟩
    obtain ⟨n, rfl⟩ : ∃ k, n = k + 1 := ⟨n - 1, by omega⟩
    simp only [lookupWithin, hf, hg]
    generalize f.bindings.find? name = b, g.bindings.find? name = c at hfound ⊢
    generalize f.outer = o, g.outer = o' at houter ⊢
    cases hfound with
    | some hbc => exact ⟨_, _, rfl, rfl, .some hbc⟩
    | none =>
      cases houter with
      | none => exact ⟨_, _, rfl, rfl, .none⟩
      | @some k l hkl =>
        obtain ⟨⟨hk, hl⟩, hsame⟩ := hkl
        exact ih k hk hsame m n (by omega) (by omega)

/-! ### Look-ups after an operation -/

/-- A look-up depends on the scope in which it starts and on older ones. -/
theorem Chained.lookup_congr {a' : Scopes} (h : a.Chained) {i : Scope.Index}
    (hi : i < a.size) (hframes : ∀ k ≤ i, a'.frames[k]? = a.frames[k]?) (name : String) :
    a'.lookup i name = a.lookup i name := by
  have hrel : ∃ b c, a.lookup i name = .ok b ∧ a'.lookup i name = .ok c ∧ Option.Rel Eq b c := by
    refine @lookup_rel a a' name (fun k l => k = l ∧ k ≤ i) Eq ?_ i i ⟨rfl, Nat.le_refl i⟩
    rintro k _ ⟨rfl, hk⟩
    obtain ⟨f, hf⟩ := getElem?_eq_some_iff_lt.mpr (Nat.lt_of_le_of_lt hk hi)
    refine ⟨f, f, hf, (hframes k hk).trans hf, ?_, ?_⟩
    · cases f.bindings.find? name with
      | none => exact .none
      | some b => exact .some rfl
    · cases ho : f.outer with
      | none => exact .none
      | some o =>
        have hlt := h.lt_of_outer_eq hf ho
        exact .some ⟨⟨hlt, hlt⟩, rfl, Nat.le_trans (Nat.le_of_lt hlt) hk⟩
  obtain ⟨b, c, hb, hc, hbc⟩ := hrel
  rw [hb, hc]
  cases hbc with
  | none => rfl
  | some hbc => rw [hbc]

/-- Opening a scope does not change what names stand for in the scopes that were there. -/
theorem Chained.lookup_push (h : a.Chained) {i : Scope.Index} (hi : i < a.size)
    (outer : Scope.Index) (bindings : Bindings) (name : String) :
    (a.push outer bindings).2.lookup i name = a.lookup i name := by
  refine h.lookup_congr hi (fun k hk => ?_) name
  rw [getElem?_push, if_neg (Nat.ne_of_lt (Nat.lt_of_le_of_lt hk hi))]

/-- In a new scope a name stands for what it is bound to there, or else for what it stands for in
the outer scope. -/
theorem Chained.lookup_push_self (h : a.Chained) {outer : Scope.Index} (ho : outer < a.size)
    (bindings : Bindings) (name : String) :
    (a.push outer bindings).2.lookup a.size name =
      match bindings.find? name with
      | some b => .ok (some b)
      | none => a.lookup outer name := by
  have hnew : (a.push outer bindings).2.frames[a.size]? = some ⟨bindings, some outer⟩ := by
    rw [getElem?_push, if_pos rfl]
  rw [(h.push ho bindings).lookup_eq hnew]
  cases bindings.find? name with
  | some b => rfl
  | none => exact h.lookup_push ho outer bindings name

/-- Binding a name does not change what names stand for in older scopes. -/
theorem Chained.lookup_insert_of_lt (h : a.Chained) {a' : Scopes} {i id : Scope.Index}
    (hid : id < a.size) (hi : i < id) {name : String} {b : Binding}
    (hinsert : a.insert id name b = .ok a') (other : String) :
    a'.lookup i other = a.lookup i other := by
  refine h.lookup_congr (Nat.lt_trans hi hid) (fun k hk => ?_) other
  rw [getElem?_of_insert hinsert, if_neg (Nat.ne_of_lt (Nat.lt_of_le_of_lt hk hi))]

/-- In the scope where a name has been bound it stands for what it was bound to, and no other name
is affected. -/
theorem Chained.lookup_insert_self (h : a.Chained) {a' : Scopes} {i : Scope.Index}
    (hi : i < a.size) {name : String} {b : Binding} (hinsert : a.insert i name b = .ok a')
    (other : String) :
    a'.lookup i other = if other = name then .ok (some b) else a.lookup i other := by
  obtain ⟨f, hf⟩ := getElem?_eq_some_iff_lt.mpr hi
  have hf' : a'.frames[i]? = some { f with bindings := f.bindings.insert name b } := by
    rw [getElem?_of_insert hinsert, if_pos rfl, hf]
    rfl
  rw [(h.insert hinsert).lookup_eq hf', h.lookup_eq hf]
  simp only [Bindings.find?_insert]
  by_cases hother : other = name
  · rw [if_pos hother, if_pos hother]
  · rw [if_neg hother, if_neg hother]
    cases f.bindings.find? other with
    | some c => rfl
    | none =>
      cases ho : f.outer with
      | none => rfl
      | some o => exact h.lookup_insert_of_lt hi (h.lt_of_outer_eq hf ho) hinsert other

end Scopes

end Blockscript
