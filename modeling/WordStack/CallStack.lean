import WordStack.Error
import WordStack.Value

/-!
# The call stack

A frame for each list that is being walked, the innermost last. A frame knows its list, the element
at which the walk is, and the put-scope that was innermost when the walk began. An error leaves the
frames where they are, so that the place of the failure can be seen.
-/

namespace WordStack

/-- A list that is being walked. -/
structure Frame where
  items : ListId
  cursor : Option Value
  putScope : Nat
  deriving Inhabited

structure CallStack where
  frames : Array Frame := #[]
  /-- How many frames there may be. -/
  limit : Option Nat := none
  deriving Inhabited

namespace CallStack

def depth (c : CallStack) : Nat := c.frames.size

/-- The limit, if there are as many frames as there may be. -/
def reachedLimit? (c : CallStack) : Option Nat := c.limit.filter (· ≤ c.depth)

/-- Begin to walk a list, unless there are as many frames as there may be. -/
def push (c : CallStack) (items : ListId) (putScope : Nat) : Except EvalError Unit × CallStack :=
  match c.reachedLimit? with
  | some limit => (.error (.recursionLimit limit), c)
  | none => (.ok (), { c with frames := c.frames.push ⟨items, none, putScope⟩ })

/-- End the innermost walk, if there is one. -/
def pop (c : CallStack) : CallStack := { c with frames := c.frames.pop }

/-- Note the element at which the innermost walk is. -/
def setCursor (c : CallStack) (v : Value) : CallStack :=
  { c with frames := c.frames.modify (c.frames.size - 1) fun f => { f with cursor := some v } }

/-- Drop the frames above the first `depth`. -/
def truncate (c : CallStack) (depth : Nat) : CallStack :=
  { c with frames := c.frames.take depth }

def clear (c : CallStack) : CallStack := { c with frames := #[] }

def current? (c : CallStack) : Option Frame := c.frames.back?

/-- The frames from the innermost one out. -/
def innermostFirst (c : CallStack) : List Frame := c.frames.toList.reverse

/-- A push adds one frame, and never goes beyond the limit. -/
theorem push_eq_ok {c c' : CallStack} {items : ListId} {putScope : Nat}
    (h : c.push items putScope = (.ok (), c')) :
    c'.frames = c.frames.push ⟨items, none, putScope⟩ ∧ c'.limit = c.limit ∧
      ∀ limit ∈ c.limit, c'.depth ≤ limit := by
  unfold push at h
  split at h
  · cases h
  · next hr =>
    cases h
    refine ⟨rfl, rfl, ?_⟩
    intro limit hl
    have hl : c.limit = some limit := hl
    have : ¬ limit ≤ c.depth := by simpa [reachedLimit?, hl] using hr
    have : c.depth = c.frames.size := rfl
    simp only [depth, Array.size_push]
    omega

end CallStack

end WordStack
