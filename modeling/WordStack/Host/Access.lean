/-!
# Access to members

How a member of a host type is reached: what kind of member it is, whether it needs a target, and
the flags that say so in a number.
-/

namespace WordStack

/-- Whether a member needs a target. -/
inductive Receiver where
  | ofType
  | ofInstance
  deriving DecidableEq, Repr, Inhabited

/-- What a member name means on a type. -/
inductive MemberKind where
  | constructor
  | method (returns : Bool)
  | field
  | property
  | event
  | missing
  deriving DecidableEq, Repr, Inhabited

/-- A field or a property. -/
def MemberKind.isData : MemberKind → Bool
  | field | property => true
  | _ => false

def MemberKind.isMethod : MemberKind → Bool
  | method _ => true
  | _ => false

/-- A set of access flags, a bit for each. -/
structure AccessFlags where
  bits : UInt32
  deriving DecidableEq, Repr, Inhabited

namespace AccessFlags

def ofInstance : AccessFlags := ⟨4⟩
def ofType : AccessFlags := ⟨8⟩
def isPublic : AccessFlags := ⟨16⟩
def invokeMethod : AccessFlags := ⟨256⟩
def createInstance : AccessFlags := ⟨512⟩
def getField : AccessFlags := ⟨1024⟩
def setField : AccessFlags := ⟨2048⟩
def getProperty : AccessFlags := ⟨4096⟩
def setProperty : AccessFlags := ⟨8192⟩

/-- The flags by name, in the order of their bits. -/
def named : List (String × AccessFlags) :=
  [("Instance", ofInstance), ("Static", ofType), ("Public", isPublic),
    ("InvokeMethod", invokeMethod), ("CreateInstance", createInstance), ("GetField", getField),
    ("SetField", setField), ("GetProperty", getProperty), ("SetProperty", setProperty)]

def union (a b : AccessFlags) : AccessFlags := ⟨a.bits ||| b.bits⟩

/-- All of the flags `b` are set. -/
def contains (a b : AccessFlags) : Bool := a.bits &&& b.bits == b.bits

/-- One of the flags `b` is set. -/
def intersects (a b : AccessFlags) : Bool := a.bits &&& b.bits != 0

/-- The bits of every flag. -/
def known : UInt32 := (named.map (·.2.bits)).foldl (· ||| ·) 0

/-- The flags of a number; bits that mean nothing are dropped. -/
def ofBits (bits : UInt32) : AccessFlags := ⟨bits &&& known⟩

/-- The flags that reach a member of the given kind with `count` arguments. -/
def forAccess (kind : MemberKind) (receiver : Receiver) (count : Nat) : AccessFlags :=
  let binding := match receiver with
    | .ofType => ofType
    | .ofInstance => ofInstance
  let access := match kind with
    | .constructor => createInstance
    | .field => if count = 0 then getField else setField
    | .property => if count = 0 then getProperty else setProperty
    | .method _ | .event | .missing => invokeMethod
  isPublic.union (binding.union access)

end AccessFlags

end WordStack
