import WordStack.Interp.Start

/-!
# A program's own run

The members of the handle by which a program looks at the interpreter that runs it.
-/

namespace WordStack.Interp

/-- The handle itself, or its type. -/
def isReflection (s : Store) : Value → Bool
  | .object o =>
    match s.payload o with
    | some .reflection => true
    | _ => false
  | .hostType type => type == reflectionType
  | _ => false

/-- The value of a member of the handle. -/
def reflect (member : String) (args : Array Value) : Eval Value := do
  let i ← get
  match member, args.toList with
  | "Stack", [] => .list <$> newList i.stack.values
  | "CallDepth", [] => pure (.integer (Int64.ofInt i.calls.depth))
  | "CallEnvironments", [] =>
    .list <$> newList (i.calls.innermostFirst.map fun f => .list f.items).toArray
  | "CurrentRootItems", [] => pure (.list i.root)
  | "Code", [v] =>
    match i.setting.folder.read (i.store.textOf v) with
    | .ok text => pure (.text text)
    | .error e => throw e
  | _, _ =>
    throw (.host (i.store.callText reflectionType.name member args)
      (.missingMember reflectionType.name member))

end WordStack.Interp
