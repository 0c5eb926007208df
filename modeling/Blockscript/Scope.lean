import Blockscript.Stmt
import Blockscript.Value

/-!
# Scopes

Names are bound in scopes, and each scope but the root lies in an outer one, where the names that
it does not bind itself are looked up. All live scopes stand in one array, oldest first. A scope is
called by its index; an index is free again once the scope and all later ones are dropped.

Nothing here forbids a scope whose outer index is not, or not yet, in use. To look a name up in a
dead scope is an error; the walk outwards is cut off where it can only go round in a circle.

## Main definitions

* `Closure`, `Binding`, `Bindings` : what names stand for.
* `Scope`, `Scopes` : one scope, and all that are alive.
* `Scopes.push`, `Scopes.dropFrom`, `Scopes.insert`, `Scopes.lookup` : what is done with them.

## Main results

* `Bindings.find?_insert` : what names stand for after one of them is bound.
-/

namespace Blockscript

/-- The index of a scope. -/
abbrev Scope.Index := Nat

/-- The scope that is always there. -/
def Scope.Index.root : Scope.Index := 0

/-- A block together with the scope in which it was defined. -/
structure Closure where
  /-- The block. -/
  block : Block
  /-- The scope in which names of the block are looked up. -/
  scope : Scope.Index

/-- The number of arguments a closure expects. -/
def Closure.arity (c : Closure) : Nat :=
  c.block.arity

/-- What a name stands for. -/
inductive Binding where
  | value (v : Value)
  | block (c : Closure)

/-- The bindings of one scope. -/
structure Bindings where
  /-- The names with what they stand for. -/
  entries : List (String × Binding)

namespace Bindings

/-- No bindings. -/
def empty : Bindings :=
  ⟨[]⟩

/-- What a name is bound to. -/
def find? (bindings : Bindings) (name : String) : Option Binding :=
  bindings.entries.lookup name

/-- Binds a name, in place of what it was bound to before. -/
def insert (bindings : Bindings) (name : String) (b : Binding) : Bindings :=
  ⟨(name, b) :: bindings.entries.filter (·.1 != name)⟩

/-- The bindings that arise by binding names in order. -/
def ofList (entries : List (String × Binding)) : Bindings :=
  entries.foldl (fun bindings (name, b) => bindings.insert name b) empty

@[simp] theorem find?_empty (name : String) : empty.find? name = none := rfl

theorem lookup_filter_ne {name other : String} (h : other ≠ name)
    (entries : List (String × Binding)) :
    (entries.filter (·.1 != name)).lookup other = entries.lookup other := by
  induction entries with
  | nil => rfl
  | cons entry rest ih =>
    obtain ⟨key, b⟩ := entry
    by_cases hkey : key = name
    · have hother : (other == name) = false := by simpa using h
      simp [hkey, List.lookup_cons, ih, hother]
    · simp [hkey, List.lookup_cons, ih]

/-- After a name is bound it stands for what it was bound to, and no other name is affected. -/
theorem find?_insert (bindings : Bindings) (name other : String) (b : Binding) :
    (bindings.insert name b).find? other =
      if other = name then some b else bindings.find? other := by
  by_cases h : other = name
  · simp [find?, insert, h]
  · have hother : (other == name) = false := by simpa using h
    simp [find?, insert, List.lookup_cons, h, hother, lookup_filter_ne h]

end Bindings

/-- A scope. -/
structure Scope where
  /-- The names that it binds. -/
  bindings : Bindings
  /-- The scope in which it lies. -/
  outer : Option Scope.Index

/-- The live scopes, oldest first. -/
structure Scopes where
  /-- The scopes by index. -/
  frames : Array Scope

/-- A scope was used that is no longer, or was never, alive. -/
structure DeadScope where
  /-- The index that belongs to no live scope. -/
  id : Scope.Index
deriving DecidableEq, Repr

namespace Scopes

/-- A root scope without bindings. -/
def initial : Scopes :=
  ⟨#[⟨.empty, none⟩]⟩

/-- The number of live scopes. -/
def size (scopes : Scopes) : Nat :=
  scopes.frames.size

/-- Opens a scope inside `outer`, which gets the first index that is not in use. -/
def push (scopes : Scopes) (outer : Scope.Index) (bindings : Bindings) : Scope.Index × Scopes :=
  (scopes.size, ⟨scopes.frames.push ⟨bindings, some outer⟩⟩)

/-- Drops the scope `id` and all later ones, but never the root. -/
def dropFrom (scopes : Scopes) (id : Scope.Index) : Scopes :=
  ⟨scopes.frames.take (max id 1)⟩

/-- Binds a name in the scope `id`, in place of what it was bound to there before. -/
def insert (scopes : Scopes) (id : Scope.Index) (name : String) (b : Binding) :
    Except DeadScope Scopes :=
  match scopes.frames[id]? with
  | none => .error ⟨id⟩
  | some scope =>
    .ok ⟨scopes.frames.setIfInBounds id { scope with bindings := scope.bindings.insert name b }⟩

/-- Looks a name up in the scope `id` and then outwards, through at most `steps` scopes. -/
def lookupWithin (scopes : Scopes) (name : String) :
    (steps : Nat) → (id : Scope.Index) → Except DeadScope (Option Binding)
  | 0, _ => .ok none
  | steps + 1, id =>
    match scopes.frames[id]? with
    | none => .error ⟨id⟩
    | some scope =>
      match scope.bindings.find? name, scope.outer with
      | some b, _ => .ok (some b)
      | none, some outer => lookupWithin scopes name steps outer
      | none, none => .ok none

/-- What a name stands for in the scope `id`: the binding of the innermost scope that has one. A
walk through more scopes than are alive meets one of them again, so it cannot find anything. -/
def lookup (scopes : Scopes) (id : Scope.Index) (name : String) :
    Except DeadScope (Option Binding) :=
  lookupWithin scopes name (scopes.size + 1) id

end Scopes

end Blockscript
