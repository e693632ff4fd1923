import WordStack.Interp

/-!
# A new interpreter

At the start the words for primitives, operators and truth values are bound, and the handle by
which a program looks at its own run with the names of its members. Then the configured references
are imported.
-/

namespace WordStack

/-- Where host calls run and how notices are delivered: on the spot, or by an observer who asks. -/
inductive Dispatch where
  | inline
  | observer
  deriving DecidableEq, Repr, Inhabited

/-- How an interpreter is set up. -/
structure Config where
  registry : Registry := Registry.ofModules [coreModule]
  delimiters : Delimiters := .standard
  folder : Folder := { path := "." }
  dispatch : Dispatch := .inline
  loadDepth : Nat := 32
  callDepth : Option Nat := some 100000
  references : List (String × List String) := [("core", ["System"])]
  deriving Inhabited

namespace Interp

/-- The type of the handle by which a program looks at its own run. -/
def reflectionType : HostType := .core "Runtime"

/-- The members of that handle. -/
def reflectionMembers : List String :=
  ["Stack", "CallDepth", "CallEnvironments", "CurrentRootItems", "Code"]

/-- Bind the words that every program starts with. -/
def bindWords : Eval Unit := do
  Primitive.all.forM fun p => bindSet p.word (.action (.primitive p))
  Operator.all.forM fun op => bindSet op.word (.action (.operator op))
  bindSet "true" (.boolean true)
  bindSet "false" (.boolean false)
  let o := (← get).store.nextObject reflectionType
  modify fun i => { i with store := i.store.addObject .reflection }
  bindSet "runtime" (.object o)
  bindSet reflectionType.name (.hostType reflectionType)
  reflectionMembers.forM bindMember

/-- An interpreter before any word is bound. -/
def blank (c : Config) (store : Store) : Interp where
  setting := ⟨c.registry, c.delimiters, c.folder, c.loadDepth, false⟩
  store := store.addList #[]
  calls := { limit := c.callDepth }
  root := store.nextList

/-- A new interpreter, or the failure of a reference. -/
def new (c : Config) (store : Store) : Except EvalError Interp :=
  let start : Eval Unit := do
    bindWords
    c.references.forM fun (module, spaces) => importTypes module spaces
  match start (blank c store) with
  | (.ok (), i) => .ok i
  | (.error e, _) => .error e

end Interp

end WordStack
