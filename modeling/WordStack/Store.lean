import Std.Data.TreeMap
import WordStack.Value

/-!
# The store

Everything that is shared by identity: the elements of the lists, the contents of the host's
objects, and the values the host keeps under names of its own. `Store.items` is the view of a
list; each operation on lists has a lemma that says what it does to the view.
-/

namespace WordStack

/-- What an object of the host holds. -/
inductive Payload where
  /-- A text that grows. -/
  | buffer (contents : String)
  /-- The handlers of an event, in the order in which they were added. -/
  | handlers (callbacks : Array Callback)
  /-- The handle by which a program looks at its own run. -/
  | reflection
  /-- Anything else, known by its printed form alone. -/
  | plain (printed : String)
  deriving Inhabited

structure Store where
  lists : Array (Array Value) := #[]
  objects : Array Payload := #[]
  /-- How many callbacks have been made. -/
  callbacks : Nat := 0
  /-- What members of the host keep by name. -/
  kept : Std.TreeMap String Value := {}
  deriving Inhabited

namespace Store

/-- The elements of a list. -/
def items (s : Store) (l : ListId) : Array Value := s.lists.getD l.index #[]

/-- The identity of the list that is made next. -/
def nextList (s : Store) : ListId := ⟨s.lists.size⟩

/-- Make the next list, with the given elements. -/
def addList (s : Store) (values : Array Value) : Store :=
  { s with lists := s.lists.push values }

/-- A new list with the given elements. -/
def newList (s : Store) (values : Array Value) : ListId × Store := (s.nextList, s.addList values)

/-- Change the elements of a list, for every holder of it. -/
def modifyItems (s : Store) (l : ListId) (f : Array Value → Array Value) : Store :=
  { s with lists := s.lists.modify l.index f }

def push (s : Store) (l : ListId) (v : Value) : Store := s.modifyItems l (·.push v)

def clear (s : Store) (l : ListId) : Store := s.modifyItems l fun _ => #[]

/-- Insert before position `i`. -/
def insertAt (s : Store) (l : ListId) (i : Nat) (v : Value) : Store :=
  s.modifyItems l (·.insertIdxIfInBounds i v)

/-- Replace the element at position `i`. -/
def setAt (s : Store) (l : ListId) (i : Nat) (v : Value) : Store :=
  s.modifyItems l (·.setIfInBounds i v)

/-- Remove the element at position `i`. -/
def removeAt (s : Store) (l : ListId) (i : Nat) : Store :=
  s.modifyItems l (·.eraseIdxIfInBounds i)

/-- Insert before position `i`, which may be the end but not past it. -/
def insert? (s : Store) (l : ListId) (i : Nat) (v : Value) : Option Store :=
  if i ≤ (s.items l).size then some (s.insertAt l i v) else none

/-- Replace the element at position `i`; the old one comes back. -/
def replace? (s : Store) (l : ListId) (i : Nat) (v : Value) : Option (Value × Store) :=
  (s.items l)[i]?.map fun old => (old, s.setAt l i v)

/-- Remove the element at position `i`, which comes back. -/
def remove? (s : Store) (l : ListId) (i : Nat) : Option (Value × Store) :=
  (s.items l)[i]?.map fun old => (old, s.removeAt l i)

/-- What an object holds. -/
def payload (s : Store) (o : HostObject) : Option Payload := s.objects[o.index]?

/-- The object that is made next, of the given type. -/
def nextObject (s : Store) (type : HostType) : HostObject := ⟨s.objects.size, type⟩

/-- Make the next object. -/
def addObject (s : Store) (p : Payload) : Store := { s with objects := s.objects.push p }

/-- Change what an object holds, for every holder of it. -/
def setPayload (s : Store) (o : HostObject) (p : Payload) : Store :=
  { s with objects := s.objects.setIfInBounds o.index p }

/-- A new callback. -/
def newCallback (s : Store) (body : ListId) (signature : Signature) (attached : Bool) :
    Callback × Store :=
  (⟨s.callbacks, body, signature, attached⟩, { s with callbacks := s.callbacks + 1 })

/-- Keep a value under a name. -/
def keep (s : Store) (name : String) (v : Value) : Store :=
  { s with kept := s.kept.insert name v }

/-! ## The view after each operation -/

/-- A list that the store knows. -/
def Live (s : Store) (l : ListId) : Prop := l.index < s.lists.size

instance (s : Store) (l : ListId) : Decidable (s.Live l) := inferInstanceAs (Decidable (_ < _))

@[simp] theorem items_newList_fst (s : Store) (vs : Array Value) :
    (s.newList vs).2.items (s.newList vs).1 = vs := by
  simp [newList, nextList, addList, items]

theorem items_newList_of_live {s : Store} {vs : Array Value} {l : ListId} (h : s.Live l) :
    (s.newList vs).2.items l = s.items l := by
  have h' : l.index < s.lists.size := h
  simp [newList, addList, items, Array.getElem?_push, Nat.ne_of_lt h']

theorem items_modifyItems_self {s : Store} {l : ListId} {f : Array Value → Array Value}
    (h : s.Live l) : (s.modifyItems l f).items l = f (s.items l) := by
  have h' : l.index < s.lists.size := h
  simp [modifyItems, items, Array.getElem_modify, h']

theorem items_modifyItems_of_ne {s : Store} {l l' : ListId} {f : Array Value → Array Value}
    (h : l' ≠ l) : (s.modifyItems l f).items l' = s.items l' := by
  have h' : l.index ≠ l'.index := fun e => h (by cases l; cases l'; simp_all)
  simp [modifyItems, items, Array.getElem?_modify, h']

end Store

end WordStack
