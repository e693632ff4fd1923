import WordStack.Interp.Reflection
import WordStack.Task

/-!
# Words that reach the host

The words that call members, import types and make callbacks. A member is called by its name, for
which the right one is looked up, or by explicit flags.
-/

namespace WordStack.Interp

/-- Walk a value, and push how many values that left, before the tasks go on. -/
def evaluateAndSplit (after : List Task) : Eval Next := do
  let v ← pop
  let height := (← get).stack.size
  let l ← listOf v
  pure (.walk l (.countAbove height :: after))

/-! ## Calling a member by name -/

/-- The subject of a call: a value, or a truth value above it that says whether a type itself is
the target. -/
def popSubject : Eval (Value × Bool) := do
  match ← pop with
  | .boolean force =>
    let v ← pop
    pure (v, force)
  | v => pure (v, false)

/-- The call of a member, by what its name means on the type, and whether its result is pushed. -/
def memberCall (type : HostType) (target : Option Value) (member : String) (args : Array Value) :
    Eval (HostCall × Bool) := do
  let i ← get
  let kind :=
    if member = TypeDescriptor.constructorName then .constructor
    else i.setting.registry.resolve type member args.size
  let receiver := if target.isSome then Receiver.ofInstance else .ofType
  let flags := AccessFlags.forAccess kind receiver args.size
  match kind with
  | .constructor => pure (⟨type, TypeDescriptor.constructorName, flags, none, args⟩, true)
  | .method returns => pure (⟨type, member, flags, target, args⟩, returns)
  | .field | .property => pure (⟨type, member, flags, target, args⟩, args.isEmpty)
  | .event => pure (⟨type, "add_" ++ member, flags, target, args⟩, false)
  | .missing =>
    throw (.host (i.store.callText type.name member args) (.missingMember type.name member))

/-- Call a member with the given number of arguments from the stack. -/
def executeWith (member : String) (count : Nat) : Eval Next := do
  let args ← popping fun _ => OperandStack.popMany count
  let (subject, force) ← popSubject
  if isReflection (← get).store subject then
    let v ← reflect member args
    push v
    pure .done
  else
    let (type, target) := match subject, force with
      | .hostType type, false => (type, none)
      | _, _ => (Registry.typeOf subject, some subject)
    let (call, keep) ← memberCall type target member args
    pure (.call call keep)

/-- Call a member; a list on the stack holds the arguments. -/
def execute : Eval Next := do
  let member ← popping OperandStack.popName
  match ← popping fun _ => OperandStack.peek with
  | .list _ => evaluateAndSplit [.execute member]
  | _ => executeWith member 0

/-- Call a member once its arguments have been walked. -/
def executeCounted (member : String) : Eval Next := do
  let count ← popping OperandStack.popCount
  executeWith member count

/-! ## Calling a member by flags -/

/-- Take flags; the number must be one of 32 bits. -/
def popFlags : Eval AccessFlags := do
  let n ← popping OperandStack.popInteger
  if 0 ≤ n.toInt ∧ n.toInt < UInt32.size then pure (.ofBits (UInt32.ofNat n.toInt.toNat))
  else mismatch "member flags" (.integer n)

def invoke : Eval Next := do
  let kind ← popFlags
  let binding ← popFlags
  let member ← popping OperandStack.popName
  let typeName ← popping OperandStack.popName
  let module ← popping OperandStack.popName
  let count ← popping OperandStack.popCount
  let args ← popping fun _ => OperandStack.popMany count
  let flags := (kind.union binding).union .isPublic
  let target ←
    if flags.contains .ofInstance && !flags.contains .createInstance then some <$> pop
    else pure none
  let i ← get
  let type ← hostResult (i.store.callText typeName member args)
    (i.setting.registry.findType module typeName)
  pure (.call ⟨type, member, flags, target, args⟩ true)

/-! ## Importing types and making callbacks -/

def reference : Eval Unit := do
  let spaces ← match ← pop with
    | .list l => do
      let s := (← get).store
      pure ((s.items l).toList.map s.textOf)
    | v =>
      match v.name? with
      | some name => pure [name]
      | none => mismatch "namespaces" v
  let module ← popping OperandStack.popName
  importTypes module spaces

/-- Take a list and push a callback that runs it. -/
def pushCallback (signature : Signature) : Eval Unit := do
  let body ← popping OperandStack.popList
  let c ← modifyGet fun i =>
    let (c, store) := i.store.newCallback body signature i.setting.attached
    (c, { i with store })
  push (.callback c)

/-- The signature of event handlers: a sender and what it sends. -/
def handlerSignature : Signature := ⟨[.core "Object", .core "Object"], none⟩

/-- The types in a row of values, if each of them is one. -/
def typesOf : List Value → Eval (List HostType)
  | [] => pure []
  | .hostType type :: vs => do
    let types ← typesOf vs
    pure (type :: types)
  | v :: _ => mismatch "parameter type" v

/-- Make a callback: of a type of callbacks, or of a return type and a list of parameter types. -/
def createDelegate : Eval Next := do
  match ← popping fun _ => OperandStack.peek with
  | .hostType _ =>
    let type ← popping OperandStack.popType
    match (← get).setting.registry.delegate? type with
    | some signature =>
      pushCallback signature
      pure .done
    | none => mismatch "delegate type" (.hostType type)
  | _ => evaluateAndSplit [.makeDelegate]

/-- Make a callback once its parameter types have been walked. -/
def delegateCounted : Eval Next := do
  let count ← popping OperandStack.popCount
  let values ← popping fun _ => OperandStack.popMany count
  let params ← typesOf values.toList
  let returns ← popping OperandStack.popType
  pushCallback ⟨params, if returns.name = "Void" then none else some returns⟩
  pure .done

end WordStack.Interp
