import WordStack.Conversion

/-!
# The operand stack

The values that words take and leave. A word that expects a kind of value takes the value off the
stack before it looks at it, so the value is gone also when it is of another kind.
-/

namespace WordStack

structure OperandStack where
  /-- The values from the bottom up. -/
  values : Array Value := #[]
  deriving Inhabited

/-- What takes values off the stack: it can fail, and the stack that it leaves then counts. -/
abbrev Popping := ExceptT EvalError (StateM OperandStack)

namespace OperandStack

def push (st : OperandStack) (v : Value) : OperandStack := ⟨st.values.push v⟩

def size (st : OperandStack) : Nat := st.values.size

/-- Take the topmost value. -/
def pop : Popping Value := fun st =>
  match st.values.back? with
  | some v => (.ok v, ⟨st.values.pop⟩)
  | none => (.error .stackUnderflow, st)

/-- Look at the topmost value. -/
def peek : Popping Value := fun st =>
  match st.values.back? with
  | some v => (.ok v, st)
  | none => (.error .stackUnderflow, st)

/-- Take the `n` topmost values, in the order in which they were pushed; none if there are fewer. -/
def popMany (n : Nat) : Popping (Array Value) := fun st =>
  let size := st.values.size
  if n ≤ size then
    (.ok (st.values.extract (size - n) size), ⟨st.values.take (size - n)⟩)
  else (.error .stackUnderflow, st)

/-- Take a value of the kind that `pick` accepts. -/
def popAs {α : Type} (s : Store) (expected : String) (pick : Value → Option α) : Popping α := do
  let v ← pop
  match pick v with
  | some a => pure a
  | none => throw (s.mismatch expected v)

def popList (s : Store) : Popping ListId := popAs s "list" Value.list?

/-- Take a number of values. -/
def popCount (s : Store) : Popping Nat :=
  popAs s "count" fun
    | .integer n => if 0 ≤ n.toInt then some n.toInt.toNat else none
    | _ => none

def popInteger (s : Store) : Popping Int64 :=
  popAs s "integer" fun
    | .integer n => some n
    | _ => none

/-- Take a text or a symbol. -/
def popName (s : Store) : Popping String := popAs s "name" Value.name?

def popType (s : Store) : Popping HostType := popAs s "type" Value.hostType?

end OperandStack

end WordStack
