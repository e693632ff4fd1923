import WordStack.Number.Integer
import WordStack.Word

/-!
# Errors and their wording

What can go wrong when a program is read, when it runs, and in the host. Each kind of error names
its cause; `message` gives its wording.
-/

namespace WordStack

/-- A directive of a program text that cannot be followed. -/
inductive DirectiveError where
  | unknown (keyword : String)
  | missingArgument (directive : String)
  | unclosedGroup
  | nestedTooDeep (limit : Nat)
  | failed (directive : String) (message : String)
  deriving DecidableEq, Repr, Inhabited

def DirectiveError.message : DirectiveError → String
  | unknown keyword => "unknown pragma '" ++ keyword ++ "'"
  | missingArgument directive => "pragma " ++ directive ++ " is missing an argument"
  | unclosedGroup => "namespace group of pragma reference is not closed"
  | nestedTooDeep limit => "load-file nesting exceeds " ++ countText limit
  | failed directive message => "pragma " ++ directive ++ " failed: " ++ message

/-- A failed directive and the byte at which it starts in its text. -/
structure LexError where
  offset : Nat
  cause : DirectiveError
  deriving DecidableEq, Repr, Inhabited

def LexError.message (e : LexError) : String :=
  e.cause.message ++ " (at byte " ++ countText e.offset ++ ")"

/-- A word that a scope holds already. -/
inductive BindingError where
  | duplicate (name : String)
  deriving DecidableEq, Repr, Inhabited

def BindingError.message : BindingError → String
  | duplicate name => "'" ++ name ++ "' is already bound in this scope"

/-- A callback that cannot be run, or that failed. -/
inductive CallbackError where
  | detached
  | paused
  | reentrant
  | arity (expected got : Nat)
  | failed (message : String)
  deriving DecidableEq, Repr, Inhabited

def CallbackError.message : CallbackError → String
  | detached => "callback runtime has been dropped"
  | paused => "callback invoked while the runtime is paused"
  | reentrant => "callback invoked from the evaluation thread outside a host call"
  | arity expected got =>
    "callback expects " ++ countText expected ++ " arguments, got " ++ countText got
  | failed message => "callback failed: " ++ message

mutual

/-- A failed evaluation. -/
inductive EvalError where
  | stackUnderflow
  | typeMismatch (expected found : String)
  | unbound (name : String)
  | unknownOperator (name : String)
  | operandTypes (op : Operator) (operands : String)
  | divisionByZero
  | overflow (op : Operator)
  | recursionLimit (limit : Nat)
  | host (signature : String) (cause : HostError)
  | lex (cause : LexError)
  | binding (cause : BindingError)
  | callback (cause : CallbackError)
  | unreadable (path reason : String)

/-- A failure that the host reports. A callback that fails inside a host call comes back as
`eval`. -/
inductive HostError where
  | unknownModule (name : String)
  | unknownType (module name : String)
  | missingMember (type member : String)
  | noOverload (type member : String) (count : Nat)
  | missingTarget (member : String)
  | argument (index : Nat) (expected found : String)
  | conversion (value target : String)
  | failed (message : String)
  | eval (cause : EvalError)

end

instance : Inhabited EvalError := ⟨.stackUnderflow⟩

instance : Inhabited HostError := ⟨.failed ""⟩

mutual

def EvalError.message : EvalError → String
  | .stackUnderflow => "operand stack underflow"
  | .typeMismatch expected found => "expected " ++ expected ++ ", found " ++ found
  | .unbound name => "'" ++ name ++ "' is not bound"
  | .unknownOperator name => "unknown operator '" ++ name ++ "'"
  | .operandTypes op operands => "operator '" ++ op.word ++ "' is not defined for " ++ operands
  | .divisionByZero => "division by zero"
  | .overflow op => "integer overflow in '" ++ op.word ++ "'"
  | .recursionLimit limit => "call depth exceeds " ++ countText limit
  | .host signature cause => "Cannot execute '" ++ signature ++ "': " ++ cause.message
  | .lex cause => cause.message
  | .binding cause => cause.message
  | .callback cause => cause.message
  | .unreadable path reason => "cannot read '" ++ path ++ "': " ++ reason

def HostError.message : HostError → String
  | .unknownModule name => "module '" ++ name ++ "' is not registered"
  | .unknownType module name => "type '" ++ name ++ "' not found in module '" ++ module ++ "'"
  | .missingMember type member => "'" ++ type ++ "' has no member '" ++ member ++ "'"
  | .noOverload type member count =>
    "'" ++ type ++ "." ++ member ++ "' has no overload taking " ++ countText count ++ " arguments"
  | .missingTarget member => "instance member '" ++ member ++ "' needs a target"
  | .argument index expected found =>
    "argument " ++ countText index ++ ": expected " ++ expected ++ ", found " ++ found
  | .conversion value target => "cannot convert '" ++ value ++ "' to " ++ target
  | .failed message => message
  | .eval cause => cause.message

end

/-- The innermost failed evaluation: a callback's own error, behind the host calls it passed. -/
def EvalError.rootCause : EvalError → EvalError
  | .host _ (.eval inner) => inner.rootCause
  | e => e

/-- Why a session does not run. -/
inductive SessionError where
  | alreadyRunning
  | eval (cause : EvalError)
  deriving Inhabited

def SessionError.message : SessionError → String
  | alreadyRunning => "a run is already in progress"
  | eval cause => cause.message

end WordStack
