import WordStack.Error
import WordStack.Store.Text

/-!
# Host programs

What a member of the host does when it is called: it reads and changes the store, runs callbacks,
and ends with a result or a failure. A program is plain data that waits at each callback, so the
same member can run wherever the answer of the callback comes from.

A member can run a callback in two ways: with `call`, as a part of the host call that it answers,
or with `invoke`, from the outside, which a session may refuse.
-/

namespace WordStack

inductive HostProgram (α : Type) where
  | done (a : α)
  | fail (e : HostError)
  | read (k : Store → HostProgram α)
  | write (f : Store → Store) (k : HostProgram α)
  | call (c : Callback) (args : Array Value) (k : Except EvalError (Option Value) → HostProgram α)
  | invoke (c : Callback) (args : Array Value)
      (k : Except CallbackError (Option Value) → HostProgram α)

namespace HostProgram

variable {α β : Type}

instance : Inhabited (HostProgram α) := ⟨.fail default⟩

/-- Go on with the result of a program. -/
def bind : HostProgram α → (α → HostProgram β) → HostProgram β
  | .done a, f => f a
  | .fail e, _ => .fail e
  | .read k, f => .read fun s => (k s).bind f
  | .write g k, f => .write g (k.bind f)
  | .call c args k, f => .call c args fun r => (k r).bind f
  | .invoke c args k, f => .invoke c args fun r => (k r).bind f

instance : Monad HostProgram where
  pure := .done
  bind := bind

/-- The store as it is. -/
def getStore : HostProgram Store := .read .done

/-- Change the store. -/
def modifyStore (f : Store → Store) : HostProgram Unit := .write f (.done ())

/-- What `f` reads from the store. -/
def query (f : Store → α) : HostProgram α := .read fun s => .done (f s)

/-- A new list with the given elements. -/
def newList (values : Array Value) : HostProgram Value :=
  .read fun s =>
    let l := s.nextList
    .write (·.addList values) (.done (.list l))

/-- A new object of the host. -/
def newObject (type : HostType) (payload : Payload) : HostProgram Value :=
  .read fun s =>
    let o := s.nextObject type
    .write (·.addObject payload) (.done (.object o))

/-- The failure for an argument of the wrong kind. -/
def badArgument (index : Nat) (expected : String) (found : Value) : HostProgram α :=
  .read fun s => .fail (.argument index expected (s.describe found))

/-- Run a callback as a part of the host call; its failure becomes one of the host. -/
def callBack (c : Callback) (args : Array Value) : HostProgram (Option Value) :=
  .call c args fun
    | .ok r => .done r
    | .error e => .fail (.eval e)

/-- Whether a program runs callbacks only as a part of its host call, whatever it reads and
whatever they answer. -/
def CallsOnly : HostProgram α → Prop
  | .done _ | .fail _ => True
  | .read k => ∀ s, (k s).CallsOnly
  | .write _ k => k.CallsOnly
  | .call _ _ k => ∀ r, (k r).CallsOnly
  | .invoke _ _ _ => False

/-- What answers the callbacks of a program that runs on its own, with a state that it threads. -/
structure CallbackContext (σ : Type) where
  call : Callback → Array Value → Store → σ → Except EvalError (Option Value) × Store × σ
  invoke : Callback → Array Value → Store → σ → Except CallbackError (Option Value) × Store × σ

/-- Run a program to its end. -/
def runWith {σ : Type} (ctx : CallbackContext σ) :
    HostProgram α → Store → σ → Except HostError α × Store × σ
  | .done a, s, x => (.ok a, s, x)
  | .fail e, s, x => (.error e, s, x)
  | .read k, s, x => (k s).runWith ctx s x
  | .write f k, s, x => k.runWith ctx (f s) x
  | .call c args k, s, x =>
    let (r, s, x) := ctx.call c args s x
    (k r).runWith ctx s x
  | .invoke c args k, s, x =>
    let (r, s, x) := ctx.invoke c args s x
    (k r).runWith ctx s x

end HostProgram

/-! ## Arguments -/

/-- The target and the arguments of one call. -/
structure Invocation where
  target : Option Value
  args : Array Value
  deriving Inhabited

namespace Invocation

open HostProgram

/-- An argument, which must be there. -/
def arg (inv : Invocation) (i : Nat) : HostProgram Value :=
  match inv.args[i]? with
  | some v => .done v
  | none => .fail (.argument i "a value" "nothing")

/-- An argument of the kind that `pick` accepts. -/
def argAs {α : Type} (inv : Invocation) (i : Nat) (expected : String) (pick : Value → Option α) :
    HostProgram α := do
  let v ← inv.arg i
  match pick v with
  | some a => .done a
  | none => badArgument i expected v

def integer (inv : Invocation) (i : Nat) : HostProgram Int64 :=
  inv.argAs i "Int64" fun
    | .integer n => some n
    | _ => none

/-- A number as a double. -/
def float (inv : Invocation) (i : Nat) : HostProgram Float :=
  inv.argAs i "Double" fun
    | .float x => some x
    | .integer n => some n.toFloat
    | _ => none

/-- The characters of a text or a symbol. -/
def text (inv : Invocation) (i : Nat) : HostProgram String := inv.argAs i "String" Value.name?

def list (inv : Invocation) (i : Nat) : HostProgram ListId := inv.argAs i "List" Value.list?

def callback (inv : Invocation) (i : Nat) : HostProgram Callback :=
  inv.argAs i "delegate" fun
    | .callback c => some c
    | _ => none

/-- A position in a list or a text. -/
def position (inv : Invocation) (i : Nat) : HostProgram Nat := do
  let n ← inv.integer i
  if 0 ≤ n.toInt then .done n.toInt.toNat
  else .fail (.argument i "a non-negative index" (integerText n.toInt))

/-- The target, which must be there. -/
def this (inv : Invocation) : HostProgram Value :=
  match inv.target with
  | some v => .done v
  | none => .fail (.missingTarget "this")

/-- The target as a value of the kind that `pick` accepts. -/
def thisAs {α : Type} (inv : Invocation) (expected : String) (pick : Value → Option α) :
    HostProgram α := do
  let v ← inv.this
  match pick v with
  | some a => .done a
  | none => badArgument 0 expected v

def thisText (inv : Invocation) : HostProgram String :=
  inv.thisAs "String" fun
    | .text t => some t
    | _ => none

def thisList (inv : Invocation) : HostProgram ListId := inv.thisAs "List" Value.list?

/-- The target as an object with contents of the kind that `pick` accepts. -/
def thisObject {α : Type} (inv : Invocation) (expected : String) (pick : Payload → Option α) :
    HostProgram (HostObject × α) := do
  let v ← inv.this
  match v with
  | .object o =>
    let payload ← query (·.payload o)
    match payload.bind pick with
    | some a => .done (o, a)
    | none => badArgument 0 expected v
  | _ => badArgument 0 expected v

end Invocation

end WordStack
