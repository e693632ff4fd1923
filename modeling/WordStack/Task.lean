import WordStack.Host.Registry

/-!
# Tasks

What is left to do in a run, as plain data: the rest of a walk, what follows once a list has been
walked, and the host calls and callbacks that wait for an answer. A run keeps its tasks in a row,
the next one first.
-/

namespace WordStack

/-- A host call that is being answered. -/
structure CallSite where
  /-- The call as errors name it. -/
  signature : String
  /-- Whether its result is pushed. -/
  keep : Bool
  /-- Whether it runs at the observer's, who asked for it. -/
  remote : Bool

/-- Who gets the result of a callback. -/
inductive Reply where
  /-- The member that ran it. -/
  | toMember (site : CallSite)
      (k : Except EvalError (Option Value) → HostProgram (Option Value))
  /-- Someone outside of the run, known by a number. -/
  | toCaller (ticket : Nat)

inductive Task where
  /-- Walk a list from a position on; its frame is on the call stack. -/
  | walk (items : ListId) (position : Nat)
  /-- Process an element, after what the outside asks for in between. -/
  | element (v : Value)
  /-- Process an element. -/
  | resolve (v : Value)
  /-- End the put-scope of a procedure. -/
  | leaveScope
  /-- Walk the body if the value on the stack holds. -/
  | branch (body : Value)
  /-- Walk the body and try again if the value on the stack holds. -/
  | loop (condition body : Value)
  /-- Walk the condition of a loop again. -/
  | again (condition body : Value)
  /-- Push how many values there are above the first `height`. -/
  | countAbove (height : Nat)
  /-- Go on to call a member; the number of arguments is on the stack. -/
  | execute (member : String)
  /-- Go on to make a callback; the number of parameter types is on the stack. -/
  | makeDelegate
  /-- Take the result of a callback, of which the frames above the first `depth` are. -/
  | callback (returns : Option HostType) (depth : Nat) (servingBefore : Bool) (reply : Reply)
  /-- Run the program of a host call. -/
  | member (site : CallSite) (program : HostProgram (Option Value))
  deriving Inhabited

/-- Which word wrote a message. -/
inductive OutputChannel where
  | output
  | display
  | trace
  deriving DecidableEq, Repr, Inhabited

/-- What a word leaves to be done after it has acted on the interpreter. -/
inductive Next where
  | done
  /-- Walk a list, and then the tasks. -/
  | walk (items : ListId) (after : List Task)
  | pause
  | write (channel : OutputChannel) (message : String)
  /-- Make a host call, and push its result if asked to. -/
  | call (call : HostCall) (keep : Bool)
  deriving Inhabited

end WordStack
