import WordStack.Interp

/-!
# Binding words and putting names

The words `set`, `put` and `get`. Keys are symbols or texts, alone or in a list; values are bound
to them from the right, and looked up from the left.
-/

namespace WordStack.Interp

/-- The key that a value stands for. -/
def keyOf (v : Value) : Eval String :=
  match v.name? with
  | some name => pure name
  | none => mismatch "key" v

/-- The keys of a list of values, if each of them is one. -/
def keysOf : List Value → Eval (List String)
  | [] => pure []
  | v :: vs => do
    let key ← keyOf v
    let keys ← keysOf vs
    pure (key :: keys)

/-- Take keys off the stack. -/
def popKeys : Eval (List String) := do
  match ← pop with
  | .list l => keysOf ((← get).store.items l).toList
  | v => keysOf [v]

/-- Take a value for each key and bind it, one after the other. -/
def bindAll (bind : String → Value → Eval Unit) : List String → Eval Unit
  | [] => pure ()
  | key :: keys => do
    let v ← pop
    bind key v
    bindAll bind keys

def setKeys : Eval Unit := do
  let keys ← popKeys
  bindAll bindSet keys.reverse

def putKeys : Eval Unit := do
  let keys ← popKeys
  bindAll bindPut keys.reverse

/-- What a name means: what was put under it, else what was set. -/
def lookup? (i : Interp) (name : String) : Option Value :=
  (i.putWords.get? name).orElse fun _ => i.setWords.get? name

/-- Push the value of each key. -/
def pushAll : List String → Eval Unit
  | [] => pure ()
  | key :: keys => do
    match (← get).lookup? key with
    | some v =>
      push v
      pushAll keys
    | none => throw (.unbound key)

def getKeys : Eval Unit := do
  let keys ← popKeys
  pushAll keys

end WordStack.Interp
