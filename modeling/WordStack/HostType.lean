/-!
# Host types

The host groups its types in modules and names them inside a namespace. A program sees a type by
its short name.
-/

namespace WordStack

/-- A type of the host. -/
structure HostType where
  module : String
  space : String
  name : String
  deriving DecidableEq, Repr, Inhabited

/-- The name with its namespace in front, when there is one. -/
def HostType.fullName (t : HostType) : String :=
  if t.space.isEmpty then t.name else t.space ++ "." ++ t.name

/-- The types that the language itself has values of live in one namespace. -/
def HostType.core (name : String) : HostType := ⟨"core", "System", name⟩

/-- The parameters of a callback and what it returns, if anything. -/
structure Signature where
  params : List HostType
  returns : Option HostType
  deriving DecidableEq, Repr, Inhabited

def Signature.arity (s : Signature) : Nat := s.params.length

end WordStack
