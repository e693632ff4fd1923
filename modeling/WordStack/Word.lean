import WordStack.HostType

/-!
# Words with a built-in meaning

A program starts with the primitives and the operators bound to their words. Either kind is plain
data, so it can be pushed, bound and compared like any other value.
-/

namespace WordStack

/-- The built-in words. -/
inductive Primitive where
  | branch
  | loop
  | evaluate
  | evaluateAndSplit
  | split
  | join
  | set
  | put
  | get
  | cast
  | toName
  | makeOperation
  | makeBinaryAction
  | makeUnaryAction
  | execute
  | invoke
  | reference
  | createEventHandler
  | createDelegate
  | pause
  | output
  | display
  | trace
  deriving DecidableEq, Repr, Inhabited

namespace Primitive

/-- Every primitive, in the order in which the words are bound. -/
def all : List Primitive :=
  [branch, loop, evaluate, evaluateAndSplit, split, join, set, put, get, cast, toName,
    makeOperation, makeBinaryAction, makeUnaryAction, execute, invoke, reference,
    createEventHandler, createDelegate, pause, output, display, trace]

/-- The word a primitive is bound to. -/
def word : Primitive → String
  | branch => "if"
  | loop => "while"
  | evaluate => "evaluate"
  | evaluateAndSplit => "evaluate-and-split"
  | split => "split"
  | join => "join"
  | set => "set"
  | put => "put"
  | get => "get"
  | cast => "cast"
  | toName => "to-name"
  | makeOperation => "make-operation"
  | makeBinaryAction => "make-binary-action"
  | makeUnaryAction => "make-unary-action"
  | execute => "execute"
  | invoke => "invoke"
  | reference => "reference"
  | createEventHandler => "create-event-handler"
  | createDelegate => "create-delegate"
  | pause => "break"
  | output => "output"
  | display => "show"
  | trace => "trace"

theorem mem_all (p : Primitive) : p ∈ all := by cases p <;> decide

end Primitive

/-- The operators on values. -/
inductive Operator where
  | add
  | subtract
  | multiply
  | divide
  | modulo
  | equal
  | notEqual
  | less
  | lessOrEqual
  | greater
  | greaterOrEqual
  | and
  | or
  | exclusiveOr
  | leftShift
  | rightShift
  | negate
  | not
  | onesComplement
  deriving DecidableEq, Repr, Inhabited

namespace Operator

/-- Every operator, in the order in which the words are bound. -/
def all : List Operator :=
  [add, subtract, multiply, divide, modulo, equal, notEqual, less, lessOrEqual, greater,
    greaterOrEqual, and, or, exclusiveOr, leftShift, rightShift, negate, not, onesComplement]

/-- The word an operator is bound to. -/
def word : Operator → String
  | add => "add"
  | subtract => "subtract"
  | multiply => "multiply"
  | divide => "divide"
  | modulo => "modulo"
  | equal => "equal"
  | notEqual => "not-equal"
  | less => "less"
  | lessOrEqual => "less-or-equal"
  | greater => "greater"
  | greaterOrEqual => "greater-or-equal"
  | and => "and"
  | or => "or"
  | exclusiveOr => "exclusive-or"
  | leftShift => "left-shift"
  | rightShift => "right-shift"
  | negate => "negate"
  | not => "not"
  | onesComplement => "ones-complement"

/-- The name by which the host knows an operator. -/
def hostName : Operator → String
  | add => "Add"
  | subtract => "Subtract"
  | multiply => "Multiply"
  | divide => "Divide"
  | modulo => "Modulo"
  | equal => "Equal"
  | notEqual => "NotEqual"
  | less => "LessThan"
  | lessOrEqual => "LessThanOrEqual"
  | greater => "GreaterThan"
  | greaterOrEqual => "GreaterThanOrEqual"
  | and => "And"
  | or => "Or"
  | exclusiveOr => "ExclusiveOr"
  | leftShift => "LeftShift"
  | rightShift => "RightShift"
  | negate => "Negate"
  | not => "Not"
  | onesComplement => "OnesComplement"

/-- How many operands an operator takes. -/
def arity : Operator → Nat
  | negate | not | onesComplement => 1
  | _ => 2

/-- The operator with a word or a host name. -/
def ofIdentifier? (identifier : String) : Option Operator :=
  all.find? fun op => op.word == identifier || op.hostName == identifier

theorem mem_all (op : Operator) : op ∈ all := by cases op <;> decide

theorem ofIdentifier?_word (op : Operator) : ofIdentifier? op.word = some op := by
  cases op <;> decide

theorem ofIdentifier?_hostName (op : Operator) : ofIdentifier? op.hostName = some op := by
  cases op <;> decide

end Operator

/-- What a word can be bound to besides a value: something to perform. -/
inductive Action where
  | primitive (p : Primitive)
  | operator (op : Operator)
  | convert (type : HostType)
  deriving DecidableEq, Repr, Inhabited

/-- The printed form of an action. -/
def Action.text : Action → String
  | primitive p => p.word
  | operator op => op.word
  | convert type => "convert-to-" ++ type.name

end WordStack
