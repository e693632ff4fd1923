import WordStack.Error

/-!
# Source files

Program texts may lie in files of one folder. What names such a file stands for the text in it, and
what names none is a program text itself.
-/

namespace WordStack

/-- The files of a folder, each with the parts of its path and its bytes. -/
structure Folder where
  /-- The folder's own path, as errors show it. -/
  path : String
  files : List (List String × ByteArray) := []
  /-- The longest name that leads anywhere, in bytes. No path of 4096 bytes or more is followed,
  and the folder's own takes its share. -/
  longestName : Nat := 4071
  deriving Inhabited

namespace Folder

/-- The names that a path goes through, without the steps that stay where they are. -/
def parts (path : String) : List String :=
  (path.splitOn "/").filter fun part => part ≠ "" ∧ part ≠ "."

/-- A row of names is a folder here: the path of some file goes on after it. -/
def isFolder (f : Folder) (parts : List String) : Bool :=
  f.files.any fun (p, _) => parts.isPrefixOf p && parts.length < p.length

/-- Where a path leads from `place`; only a folder can be left or gone through. -/
def walk? (f : Folder) (place : List String) : List String → Option (List String)
  | [] => some place
  | part :: parts =>
    if !f.isFolder place then none
    else if part = "" ∨ part = "." then f.walk? place parts
    else if part = ".." then if place.isEmpty then none else f.walk? place.dropLast parts
    else f.walk? (place ++ [part]) parts

/-- The bytes of the file that a path names. -/
def file? (f : Folder) (name : String) : Option ByteArray :=
  if name.startsWith "/" ∨ f.longestName < name.utf8ByteSize then none
  else
    match f.walk? [] (name.splitOn "/") with
    | some place => (f.files.find? (·.1 == place)).map (·.2)
    | none => none

/-- The text that a name stands for. -/
def read (f : Folder) (name : String) : Except EvalError String :=
  match f.file? name with
  | none => .ok name
  | some bytes =>
    match String.fromUTF8? bytes with
    | some text => .ok text
    | none =>
      .error (.unreadable (f.path ++ "/" ++ name) "stream did not contain valid UTF-8")

end Folder

end WordStack
