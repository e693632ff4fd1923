import WordStack.Word

/-!
# Values

The values of the language. A list is shared and can change, so a value holds only its identity:
the elements are in the store (`WordStack.Store`). The same goes for the objects of the host.
-/

namespace WordStack

/-- The identity of a list. -/
structure ListId where
  index : Nat
  deriving DecidableEq, Repr, Inhabited

/-- An object of the host: its identity and its type. -/
structure HostObject where
  index : Nat
  type : HostType
  deriving DecidableEq, Repr, Inhabited

/-- A list of code that the host can run. An attached callback belongs to a session, which takes
calls from outside of any host call; a detached one can be run only by the call that got it. -/
structure Callback where
  index : Nat
  body : ListId
  signature : Signature
  attached : Bool
  deriving DecidableEq, Repr, Inhabited

/-- A value on the operand stack, in a binding or in a program. -/
inductive Value where
  | integer (n : Int64)
  | float (x : Float)
  | boolean (b : Bool)
  | text (s : String)
  | symbol (name : String)
  | list (id : ListId)
  | action (a : Action)
  | hostType (type : HostType)
  | object (o : HostObject)
  | callback (c : Callback)
  deriving Inhabited

namespace Value

/-- The name of a value's type, as the host knows it. -/
def typeName : Value → String
  | integer _ => "Int64"
  | float _ => "Double"
  | boolean _ => "Boolean"
  | text _ => "String"
  | symbol _ => "Symbol"
  | list _ => "List"
  | action _ => "Action"
  | hostType _ => "Type"
  | object o => o.type.name
  | callback _ => "Callback"

def symbol? : Value → Option String
  | symbol name => some name
  | _ => none

def list? : Value → Option ListId
  | list id => some id
  | _ => none

def hostType? : Value → Option HostType
  | hostType type => some type
  | _ => none

/-- The name in a value that can stand for one: a text or a symbol. -/
def name? : Value → Option String
  | text s => some s
  | symbol name => some name
  | _ => none

/-- The truth of a condition; only truth values and numbers have one. -/
def truth? : Value → Option Bool
  | boolean b => some b
  | integer n => some (n != 0)
  | float x => some (x != 0.0)
  | _ => none

end Value

end WordStack
