import Std.Data.TreeMap
import WordStack.Error
import WordStack.Value

/-!
# Scopes

Bindings live in a stack of scopes that is never empty. A name means what the innermost scope that
holds it says. Entering a scope covers the ones below it, and leaving it uncovers them as they
were; the outermost scope cannot be left.

Each scope is kept together with all that can be seen from it, so that a name is looked up in one
step however many scopes there are. That this is the same as a search from the innermost scope out
is `get?_eq_findSome?`.
-/

namespace WordStack

/-- The bindings of one scope, in the order of their names. -/
abbrev Scope := Std.TreeMap String Value

/-- A scope in its place among others. -/
structure ScopeLevel where
  /-- What the scope itself holds. -/
  own : Scope := {}
  /-- What each name means there. -/
  visible : Scope := {}
  deriving Inhabited

/-- From the innermost level out: what is visible from a level is what a search from there finds. -/
def ScopeLevel.Nested : List ScopeLevel → Prop
  | [] => True
  | level :: around =>
    (∀ name : String, level.visible[name]? = (level :: around).findSome? (·.own[name]?)) ∧
      Nested around

/-- In a single empty scope no name means anything. -/
theorem ScopeLevel.nested_singleton : ScopeLevel.Nested [{}] := by
  simp [ScopeLevel.Nested]

/-- The innermost scope, and those around it from the outermost one in. -/
structure Scopes where
  innermost : ScopeLevel := {}
  outer : Array ScopeLevel := #[]
  nested : ScopeLevel.Nested (innermost :: outer.toList.reverse) := by
    exact ScopeLevel.nested_singleton

namespace Scopes

instance : Inhabited Scopes := ⟨{}⟩

/-- How many scopes there are. -/
def depth (b : Scopes) : Nat := b.outer.size + 1

/-- Begin a scope inside of the others. -/
def enter (b : Scopes) : Scopes where
  innermost := ⟨{}, b.innermost.visible⟩
  outer := b.outer.push b.innermost
  nested := by
    have h := b.nested
    simp only [Array.toList_push, List.reverse_append, List.reverse_singleton,
      List.singleton_append]
    exact ⟨fun name => by simpa using h.1 name, h⟩

/-- End the innermost scope, unless it is the outermost one. -/
def leave (b : Scopes) : Scopes :=
  match h : b.outer.back? with
  | some level =>
    { innermost := level
      outer := b.outer.pop
      nested := by
        obtain ⟨rest, hr⟩ := Array.back?_eq_some_iff.1 h
        have hn := b.nested.2
        rw [hr, Array.toList_push, List.reverse_append] at hn
        simpa [hr] using hn }
  | none => b

/-- Bind a name in the innermost scope, over any binding it has there. -/
def set (b : Scopes) (name : String) (v : Value) : Scopes where
  innermost := ⟨b.innermost.own.insert name v, b.innermost.visible.insert name v⟩
  outer := b.outer
  nested := by
    refine ⟨fun other => ?_, b.nested.2⟩
    have h := b.nested.1 other
    simp only [List.findSome?_cons, Std.TreeMap.getElem?_insert] at h ⊢
    split
    · rfl
    · exact h

/-- Bind a name that is new to the innermost scope. -/
def add (b : Scopes) (name : String) (v : Value) : Except BindingError Scopes :=
  if b.innermost.own.contains name then .error (.duplicate name) else .ok (b.set name v)

/-- The binding of a name. -/
def get? (b : Scopes) (name : String) : Option Value := b.innermost.visible[name]?

def contains (b : Scopes) (name : String) : Bool := (b.get? name).isSome

/-- The scope at a position, the outermost one being at 0. -/
def scope? (b : Scopes) (i : Nat) : Option Scope :=
  if i = b.outer.size then some b.innermost.own else b.outer[i]?.map (·.own)

/-- A single empty scope. -/
def reset (_ : Scopes) : Scopes := {}

/-- The scopes from the innermost one out. -/
def innermostFirst (b : Scopes) : List Scope :=
  (b.innermost :: b.outer.toList.reverse).map (·.own)

/-! ## What names mean, and what leaving gives back -/

/-- A name means what the innermost scope that holds it says. -/
theorem get?_eq_findSome? (b : Scopes) (name : String) :
    b.get? name = b.innermostFirst.findSome? (·[name]?) := by
  rw [get?, b.nested.1 name, innermostFirst, List.findSome?_map]
  rfl

/-- A name means what the innermost scope says, else what the others say. -/
theorem get?_eq_own (b : Scopes) (name : String) : b.get? name =
    (b.innermost.own[name]?).or
      ((b.outer.toList.reverse.map (·.own)).findSome? (·[name]?)) := by
  rw [get?_eq_findSome?, innermostFirst, List.map_cons, List.findSome?_cons]
  cases b.innermost.own[name]? <;> rfl

theorem leave_enter (b : Scopes) : b.enter.leave = b := by
  unfold leave
  split
  · next level h =>
    simp only [enter, Array.back?_push, Option.some.injEq] at h
    subst h
    simp [enter]
  · next h => simp [enter] at h

@[simp] theorem depth_enter (b : Scopes) : b.enter.depth = b.depth + 1 := by
  simp [enter, depth]

@[simp] theorem depth_set (b : Scopes) (name : String) (v : Value) :
    (b.set name v).depth = b.depth := rfl

theorem depth_pos (b : Scopes) : 0 < b.depth := Nat.succ_pos _

theorem own_set (b : Scopes) (name other : String) (v : Value) :
    (b.set name v).innermost.own[other]? =
      if name = other then some v else b.innermost.own[other]? := by
  simp [set, Std.TreeMap.getElem?_insert]

theorem get?_set (b : Scopes) (name other : String) (v : Value) :
    (b.set name v).get? other = if name = other then some v else b.get? other := by
  simp [set, get?, Std.TreeMap.getElem?_insert]

end Scopes

end WordStack
