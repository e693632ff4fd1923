import WordStack.CallStack
import WordStack.Delimiters
import WordStack.Folder
import WordStack.Host.Core
import WordStack.OperandStack
import WordStack.Scopes

/-!
# The interpreter's state

What a running program reads and changes: the store, the operand stack, the words set for good, the
names put for a call, the call stack and the program itself. `Eval` is what acts on this state and
may fail; the state at the failure stays.
-/

namespace WordStack

/-- What does not change while a program runs. -/
structure Setting where
  registry : Registry
  delimiters : Delimiters := .standard
  folder : Folder
  /-- How deep files may load files. -/
  loadDepth : Nat
  /-- Whether callbacks can be run from outside of host calls. -/
  attached : Bool := false
  deriving Inhabited

structure Interp where
  setting : Setting
  store : Store := {}
  stack : OperandStack := {}
  setWords : Scopes := {}
  putWords : Scopes := {}
  calls : CallStack := {}
  /-- The list that is the program. -/
  root : ListId
  /-- The text of the program. -/
  code : String := ""
  deriving Inhabited

/-- What acts on the interpreter's state and may fail. -/
abbrev Eval := ExceptT EvalError (StateM Interp)

namespace Interp

/-- Act on the operand stack. -/
def popping {α : Type} (p : Store → Popping α) : Eval α := fun i =>
  let (r, stack) := p i.store i.stack
  (r, { i with stack })

def push (v : Value) : Eval Unit := modify fun i => { i with stack := i.stack.push v }

def pop : Eval Value := popping fun _ => OperandStack.pop

/-- Fail for a value of the wrong kind. -/
def mismatch {α : Type} (expected : String) (found : Value) : Eval α := do
  throw ((← get).store.mismatch expected found)

/-- A new list with the given elements. -/
def newList (values : Array Value) : Eval ListId := do
  let l := (← get).store.nextList
  modify fun i => { i with store := i.store.addList values }
  pure l

/-- The list to walk for a value: a list itself, or a new list of the value alone. -/
def listOf : Value → Eval ListId
  | .list l => pure l
  | v => newList #[v]

def bindSet (name : String) (v : Value) : Eval Unit :=
  modify fun i => { i with setWords := i.setWords.set name v }

def bindPut (name : String) (v : Value) : Eval Unit :=
  modify fun i => { i with putWords := i.putWords.set name v }

/-- Bind a word to a list that calls the member of that name, unless the word is bound. -/
def bindMember (name : String) : Eval Unit := do
  if !(← get).setWords.contains name then
    let l ← newList #[.text name, .symbol "execute"]
    bindSet name (.list l)

/-- Make a host failure one of the evaluation, in the call of the given name. -/
def hostResult {α : Type} (signature : String) : Except HostError α → Eval α
  | .ok a => pure a
  | .error cause => throw (.host signature cause)

/-- The value as one of a type: a conversion of the language, else one of the host. -/
def convert (v : Value) (type : HostType) : Eval Value := do
  let s := (← get).store
  match s.convertBuiltin? v type.name with
  | some (.ok u) => pure u
  | some (.error e) => throw e
  | none =>
    hostResult ("convert-to-" ++ type.name ++ "(" ++ s.print v ++ ")") (Registry.convert s v type)

/-- Bind the types of a module's namespaces to their names, and then each member name that no word
has yet. -/
def importTypes (module : String) (spaces : List String) : Eval Unit := do
  let exports ← hostResult
    ("reference(" ++ module ++ ", " ++ String.intercalate " " spaces ++ ")")
    ((← get).setting.registry.types module spaces)
  exports.forM fun (type, _) => bindSet type.name (.hostType type)
  exports.forM fun (_, members) => members.forM bindMember

/-- Forget what the last run left: operands, frames and put names. -/
def reset (i : Interp) : Interp :=
  { i with stack := {}, calls := i.calls.clear, putWords := i.putWords.reset }

end Interp

end WordStack
