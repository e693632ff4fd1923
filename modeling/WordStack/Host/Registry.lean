import WordStack.Host.Access
import WordStack.Host.Program

/-!
# The registry of host types

The host lays its modules open in a registry: types with members, told apart by name, kind and
number of arguments. A member is found by the flags of a call, and its body is a host program.
-/

namespace WordStack

/-- What a member does when it is called. -/
abbrev MemberBody := Invocation → HostProgram (Option Value)

/-- A member of a host type. -/
structure Member where
  name : String
  kind : MemberKind
  receiver : Receiver
  /-- How many arguments it takes; any number if there is none. -/
  arity : Option Nat
  /-- Not imported with the type. -/
  hidden : Bool := false
  body : MemberBody
  setter : Option MemberBody := none
  deriving Inhabited

def Member.takes (m : Member) (count : Nat) : Bool := m.arity.all (· == count)

/-- A host type with its members, and its signature if it is a type of callbacks. -/
structure TypeDescriptor where
  type : HostType
  members : Array Member := #[]
  delegate : Option Signature := none
  deriving Inhabited

namespace TypeDescriptor

variable (d : TypeDescriptor)

def addMember (m : Member) : TypeDescriptor := { d with members := d.members.push m }

/-- The name by which constructors are called. -/
def constructorName : String := "new"

/-- Add a way to make an object of the type. -/
def constructor (arity : Option Nat) (body : MemberBody) : TypeDescriptor :=
  d.addMember ⟨constructorName, .constructor, .ofType, arity, false, body, none⟩

/-- Add a method that returns a value. -/
def method (name : String) (receiver : Receiver) (arity : Option Nat) (body : MemberBody) :
    TypeDescriptor :=
  d.addMember ⟨name, .method true, receiver, arity, false, body, none⟩

/-- Add a method that returns nothing. -/
def procedure (name : String) (receiver : Receiver) (arity : Option Nat) (body : MemberBody) :
    TypeDescriptor :=
  d.addMember ⟨name, .method false, receiver, arity, false, body, none⟩

/-- Add a field that can be read. -/
def field (name : String) (receiver : Receiver) (body : MemberBody) : TypeDescriptor :=
  d.addMember ⟨name, .field, receiver, some 0, false, body, none⟩

/-- Add a property that can be read. -/
def property (name : String) (receiver : Receiver) (body : MemberBody) : TypeDescriptor :=
  d.addMember ⟨name, .property, receiver, some 0, false, body, none⟩

/-- Let the first field or property of that name be written too. -/
def settable (name : String) (body : MemberBody) : TypeDescriptor :=
  match d.members.findIdx? fun m => m.name == name && m.kind.isData with
  | some i => { d with members := d.members.modify i fun m => { m with setter := some body } }
  | none => d

/-- Add an event. Handlers are added to it by its name or by a method of its own. -/
def event (name : String) (body : MemberBody) : TypeDescriptor :=
  (d.addMember ⟨"add_" ++ name, .method false, .ofInstance, some 1, true, body, none⟩).addMember
    ⟨name, .event, .ofInstance, some 1, false, body, none⟩

/-- Make the type one of callbacks. -/
def delegating (signature : Signature) : TypeDescriptor := { d with delegate := some signature }

/-- The member for a number of arguments among those of a name that `accepts` admits. -/
def select (name : String) (count : Nat) (accepts : Member → Bool) : Except HostError Member :=
  let named := d.members.toList.filter fun m => m.name == name && accepts m
  if named.isEmpty then .error (.missingMember d.type.name name)
  else
    match named.find? (·.takes count) with
    | some m => .ok m
    | none => .error (.noOverload d.type.name name count)

/-- What a name means for a number of arguments: a member that takes as many, else the first. -/
def resolve (name : String) (count : Nat) : MemberKind :=
  let named := d.members.toList.filter (·.name == name)
  match named.find? (·.takes count) with
  | some m => m.kind
  | none => (named.head?.map (·.kind)).getD .missing

def hasConstructor : Bool := d.members.any fun m => m.kind == .constructor

/-- The names that are imported with the type, each of them once. -/
def exportedNames : List String :=
  let names := d.members.toList.filter fun m =>
    !m.hidden && m.kind != .constructor && m.kind != .event
  names.foldl (fun seen m => if seen.contains m.name then seen else seen ++ [m.name]) []

end TypeDescriptor

/-- A module of the host. -/
structure HostModule where
  name : String
  types : Array TypeDescriptor := #[]
  deriving Inhabited

/-- A call of a member. -/
structure HostCall where
  type : HostType
  member : String
  flags : AccessFlags
  target : Option Value
  args : Array Value
  deriving Inhabited

/-- A call as it is named in errors. -/
def Store.callText (s : Store) (type member : String) (args : Array Value) : String :=
  type ++ "." ++ member ++ "(" ++ String.intercalate ", " (args.toList.map s.print) ++ ")"

def HostCall.signature (call : HostCall) (s : Store) : String :=
  s.callText call.type.name call.member call.args

/-- The modules, and for each type the module that registered it last with the type's position
there. -/
structure Registry where
  modules : List HostModule := []
  index : List (HostType × String × Nat) := []
  deriving Inhabited

namespace Registry

/-- Add a module in the place of any module of its name. -/
def register (r : Registry) (m : HostModule) : Registry where
  modules := r.modules.filter (·.name != m.name) ++ [m]
  index := m.types.toList.zipIdx.foldl
    (fun index (d, i) => (d.type, m.name, i) :: index.filter (·.1 != d.type))
    (r.index.filter (·.2.1 != m.name))

def ofModules (modules : List HostModule) : Registry := modules.foldl register {}

def module? (r : Registry) (name : String) : Option HostModule :=
  r.modules.find? (·.name == name)

/-- A module that has to be there. -/
def module (r : Registry) (name : String) : Except HostError HostModule :=
  match r.module? name with
  | some m => .ok m
  | none => .error (.unknownModule name)

def descriptor? (r : Registry) (type : HostType) : Option TypeDescriptor :=
  match r.index.find? (·.1 == type) with
  | some (_, name, i) => (r.module? name).bind (·.types[i]?)
  | none => none

/-- The types of a module that live in one of the namespaces, with the names to import. -/
def types (r : Registry) (name : String) (spaces : List String) :
    Except HostError (List (HostType × List String)) :=
  (r.module name).map fun m =>
    (m.types.toList.filter fun d => spaces.contains d.type.space).map fun d =>
      (d.type, d.exportedNames)

/-- The first type of a module with that name, short or in full. -/
def findType (r : Registry) (module name : String) : Except HostError HostType :=
  match r.module module with
  | .error e => .error e
  | .ok m =>
    match m.types.toList.find? fun d => d.type.name == name || d.type.fullName == name with
    | some d => .ok d.type
    | none => .error (.unknownType module name)

/-- The host's type of a value. -/
def typeOf (v : Value) : HostType :=
  match v with
  | .object o => o.type
  | _ => .core v.typeName

/-- What a member name means on a type, for a number of arguments. -/
def resolve (r : Registry) (type : HostType) (name : String) (count : Nat) : MemberKind :=
  match r.descriptor? type with
  | none => .missing
  | some d =>
    if name = TypeDescriptor.constructorName then
      if d.hasConstructor then .constructor else .missing
    else d.resolve name count

/-- The member that a call reaches, and the body to run. -/
def bodyOf (d : TypeDescriptor) (call : HostCall) : Except HostError (Member × MemberBody) :=
  let count := call.args.size
  let plain (m : Member) := (m, m.body)
  if call.flags.contains .createInstance then
    (d.select TypeDescriptor.constructorName count (·.kind == .constructor)).map plain
  else if call.flags.intersects (.union .getField .getProperty) then
    (d.select call.member count (·.kind.isData)).map plain
  else if call.flags.intersects (.union .setField .setProperty) then
    match d.select call.member 0 (·.kind.isData) with
    | .error e => .error e
    | .ok m =>
      match m.setter with
      | none => .error (.missingMember call.type.name ("set_" ++ call.member))
      | some body =>
        if count = 1 then .ok (m, body)
        else .error (.noOverload call.type.name call.member count)
  else (d.select call.member count (·.kind.isMethod)).map plain

/-- The program of a call. -/
def invoke (r : Registry) (call : HostCall) : HostProgram (Option Value) :=
  match r.descriptor? call.type with
  | none => .fail (.unknownType call.type.module call.type.name)
  | some d =>
    match bodyOf d call with
    | .error e => .fail e
    | .ok (m, body) =>
      if m.receiver = .ofInstance ∧ call.target.isNone then .fail (.missingTarget call.member)
      else body ⟨call.target, call.args⟩

/-- The value as one of a type that the language has no conversion to. -/
def convert (s : Store) (v : Value) (type : HostType) : Except HostError Value :=
  if type.name = "Object" ∨ typeOf v = type then .ok v
  else .error (.conversion (s.print v) type.name)

/-- The signature of a type of callbacks. -/
def delegate? (r : Registry) (type : HostType) : Option Signature :=
  (r.descriptor? type).bind (·.delegate)

end Registry

end WordStack
