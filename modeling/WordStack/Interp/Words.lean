import WordStack.Interp.Binding
import WordStack.Interp.HostWords

/-!
# What words do

One function for each built-in word, and the processing of an element. A word acts on the
interpreter at once, as far as it can go without walking another list, and leaves the rest as
`Next`.
-/

namespace WordStack.Interp

/-- Walk a value: a list, or a new list of the value alone. -/
def walkValue (v : Value) (after : List Task) : Eval Next := do
  let l ← listOf v
  pure (.walk l after)

/-! ## Control -/

def branch : Eval Next := do
  let body ← pop
  let condition ← pop
  walkValue condition [.branch body]

def loop : Eval Next := do
  let body ← pop
  let condition ← pop
  walkValue condition [.loop condition body]

/-- The truth of the value on the stack, which is taken. -/
def popTruth : Eval Bool := do
  let v ← pop
  match (← get).store.isTrue v with
  | .ok b => pure b
  | .error e => throw e

/-- Walk the body if the condition holds. -/
def branchOn (body : Value) : Eval Next := do
  if ← popTruth then walkValue body [] else pure .done

/-- Walk the body, and then the condition again, if the condition holds. -/
def loopOn (condition body : Value) : Eval Next := do
  if ← popTruth then walkValue body [.again condition body] else pure .done

/-- Push how many values there are above the first `height`. -/
def countAbove (height : Nat) : Eval Next := do
  push (.integer (Int64.ofInt (((← get).stack.size : Int) - height)))
  pure .done

/-! ## Lists and values -/

def split : Eval Unit := do
  let l ← popping OperandStack.popList
  let values := (← get).store.items l
  modify fun i => { i with stack := ⟨i.stack.values ++ values⟩ }
  push (.integer (Int64.ofInt values.size))

def join : Eval Unit := do
  let count ← popping OperandStack.popCount
  let values ← popping fun _ => OperandStack.popMany count
  let l ← newList values
  push (.list l)

def cast : Eval Unit := do
  let type ← popping OperandStack.popType
  let v ← pop
  let u ← convert v type
  push u

def toName : Eval Unit := do
  let v ← pop
  push (.symbol ((← get).store.print v))

/-- The operator of a name, if it takes that many operands. -/
def operatorOf (identifier : Value) (arity : Nat) : Eval Action := do
  match identifier.name? with
  | none => mismatch "operator name" identifier
  | some name =>
    match Operator.ofIdentifier? name with
    | some op =>
      if op.arity = arity then pure (.operator op)
      else throw (.unknownOperator (name ++ "/" ++ countText arity))
    | none => throw (.unknownOperator (name ++ "/" ++ countText arity))

def makeOperation : Eval Unit := do
  let action ← match ← pop with
    | .hostType type => pure (.convert type)
    | .integer n => do
      let identifier ← pop
      if 0 ≤ n.toInt then operatorOf identifier n.toInt.toNat
      else mismatch "arity" (.integer n)
    | v => mismatch "type or arity" v
  push (.action action)

def makeOperator (arity : Nat) : Eval Unit := do
  let identifier ← pop
  let action ← operatorOf identifier arity
  push (.action action)

/-- Write the printed form of a value that is taken. -/
def output (channel : OutputChannel) : Eval Next := do
  let v ← pop
  pure (.write channel ((← get).store.print v))

/-- Write the value on the stack with its type, and leave it there. -/
def trace : Eval Next := do
  let v ← popping fun _ => OperandStack.peek
  pure (.write .trace ((← get).store.describe v))

/-! ## Actions and elements -/

/-- Nothing more to do after an action. -/
def thenDone (act : Eval Unit) : Eval Next := do
  act
  pure .done

def primitive : Primitive → Eval Next
  | .branch => branch
  | .loop => loop
  | .evaluate => do
    let v ← pop
    walkValue v []
  | .evaluateAndSplit => evaluateAndSplit []
  | .split => thenDone split
  | .join => thenDone join
  | .set => thenDone setKeys
  | .put => thenDone putKeys
  | .get => thenDone getKeys
  | .cast => thenDone cast
  | .toName => thenDone toName
  | .makeOperation => thenDone makeOperation
  | .makeBinaryAction => thenDone (makeOperator 2)
  | .makeUnaryAction => thenDone (makeOperator 1)
  | .execute => execute
  | .invoke => invoke
  | .reference => thenDone reference
  | .createEventHandler => thenDone (pushCallback handlerSignature)
  | .createDelegate => createDelegate
  | .pause => pure .pause
  | .output => output .output
  | .display => output .display
  | .trace => trace

/-- Apply an operator to its operands; the second of two is on top. -/
def operate (op : Operator) : Eval Unit := do
  let result ←
    if op.arity = 1 then do
      let v ← pop
      pure (op.unary v)
    else do
      let rhs ← pop
      let lhs ← pop
      pure (op.binary (← get).store lhs rhs)
  match result with
  | .ok v => push v
  | .error e => throw e

/-- Perform an action. -/
def perform : Action → Eval Next
  | .primitive p => primitive p
  | .operator op => thenDone (operate op)
  | .convert type => thenDone do
    let v ← pop
    let u ← convert v type
    push u

/-- Process an element. A symbol means what was put under its name, else what was set: an action is
performed, a list is walked in a scope of its own, and any other value is walked alone. A symbol
without a meaning, and all that is no symbol, is pushed. -/
def resolve (element : Value) : Eval Next := do
  match element with
  | .symbol name =>
    let i ← get
    match i.putWords.get? name with
    | some v => thenDone (push v)
    | none =>
      match i.setWords.get? name with
      | some (.action action) => perform action
      | some (.list body) => do
        modify fun i => { i with putWords := i.putWords.enter }
        pure (.walk body [.leaveScope])
      | some v => walkValue v []
      | none => thenDone (push element)
  | v => thenDone (push v)

/-- The result of a callback that has been run: the value on the stack as one of the type that the
callback returns, if it returns any. -/
def callbackResult (returns : Option HostType) : Eval (Option Value) := do
  match returns with
  | none => pure none
  | some type =>
    if type.name = "Void" then pure none
    else
      let v ← pop
      some <$> convert v type

end WordStack.Interp
