import WordStack.Arithmetic
import WordStack.Host.Registry

/-!
# Lists of the core module

The type `List`. Its members act on the list itself, so every holder of the list sees a change;
what goes through a list with a callback goes through the elements that it had at the call.
-/

namespace WordStack.CoreModule

open HostProgram

def outOfRange {α : Type} (i : Nat) : HostProgram α :=
  .fail (.failed ("index " ++ countText i ++ " is out of range"))

/-- The elements of the target as they are now. -/
def theseItems (inv : Invocation) : HostProgram (Array Value) := do
  let l ← inv.thisList
  query (·.items l)

/-- Run a callback on one value; it has to return one. -/
def callOne (c : Callback) (v : Value) : HostProgram Value := do
  match ← callBack c #[v] with
  | some r => pure r
  | none => .fail (.failed "delegate returned nothing")

/-- What a callback returns for each value. -/
def mapCalls (c : Callback) : List Value → Array Value → HostProgram (Array Value)
  | [], out => pure out
  | v :: vs, out => do
    let r ← callOne c v
    mapCalls c vs (out.push r)

/-- The values for which a callback returns a condition that holds. -/
def filterCalls (c : Callback) : List Value → Array Value → HostProgram (Array Value)
  | [], out => pure out
  | v :: vs, out => do
    let verdict ← callOne c v
    let s ← getStore
    match s.isTrue verdict with
    | .ok true => filterCalls c vs (out.push v)
    | .ok false => filterCalls c vs out
    | .error e => .fail (.eval e)

def item : MemberBody := fun inv => do
  let i ← inv.position 0
  let items ← theseItems inv
  match items[i]? with
  | some v => pure (some v)
  | none => outOfRange i

def setItem : MemberBody := fun inv => do
  let i ← inv.position 0
  let l ← inv.thisList
  let v ← inv.arg 1
  let fits ← query fun s => decide (i < (s.items l).size)
  if fits then
    modifyStore (·.setAt l i v)
    pure none
  else outOfRange i

def insert : MemberBody := fun inv => do
  let i ← inv.position 0
  let l ← inv.thisList
  let v ← inv.arg 1
  let fits ← query fun s => decide (i ≤ (s.items l).size)
  if fits then
    modifyStore (·.insertAt l i v)
    pure none
  else outOfRange i

def removeAt : MemberBody := fun inv => do
  let i ← inv.position 0
  let l ← inv.thisList
  let fits ← query fun s => decide (i < (s.items l).size)
  if fits then
    modifyStore (·.removeAt l i)
    pure none
  else outOfRange i

def list : TypeDescriptor :=
  { type := .core "List" : TypeDescriptor }
    |>.constructor none (fun inv => some <$> newList inv.args)
    |>.property "Count" .ofInstance (fun inv => do
      let items ← theseItems inv
      pure (some (.integer (Int64.ofInt items.size))))
    |>.method "Item" .ofInstance (some 1) item
    |>.procedure "Item" .ofInstance (some 2) setItem
    |>.procedure "Add" .ofInstance (some 1) (fun inv => do
      let l ← inv.thisList
      let v ← inv.arg 0
      modifyStore (·.push l v)
      pure none)
    |>.procedure "Insert" .ofInstance (some 2) insert
    |>.procedure "RemoveAt" .ofInstance (some 1) removeAt
    |>.procedure "Clear" .ofInstance (some 0) (fun inv => do
      let l ← inv.thisList
      modifyStore (·.clear l)
      pure none)
    |>.method "Reverse" .ofInstance (some 0) (fun inv => do
      let items ← theseItems inv
      some <$> newList items.reverse)
    |>.method "Contains" .ofInstance (some 1) (fun inv => do
      let v ← inv.arg 0
      let items ← theseItems inv
      let found ← query fun s => items.any (s.equal · v)
      pure (some (.boolean found)))
    |>.method "Select" .ofInstance (some 1) (fun inv => do
      let c ← inv.callback 0
      let items ← theseItems inv
      let mapped ← mapCalls c items.toList #[]
      some <$> newList mapped)
    |>.method "Where" .ofInstance (some 1) (fun inv => do
      let c ← inv.callback 0
      let items ← theseItems inv
      let kept ← filterCalls c items.toList #[]
      some <$> newList kept)

end WordStack.CoreModule
