import WordStack.Form

/-!
# The bracket machine

Parsing as a machine that reads the tokens one by one. Its state is the row of lists that are open,
the innermost first, and the set of toggles that close when they are read again. Only the outermost
list has none around it, so the row is kept as the current list and those outside of it.
-/

namespace WordStack

/-- The lists that are open: the elements of the current one, and those of the lists around it from
the inside out. -/
structure Brackets where
  current : Array Form
  around : List (Array Form)
  /-- The toggles that close. -/
  closing : Char → Bool
  deriving Inhabited

namespace Brackets

def start : Brackets := ⟨#[], [], fun _ => false⟩

/-- Append to the current list. -/
def append (b : Brackets) (forms : Array Form) : Brackets :=
  { b with current := b.current ++ forms }

/-- Begin a list inside of the current one. -/
def openList (b : Brackets) : Brackets := { b with current := #[], around := b.current :: b.around }

/-- End the current list, which becomes the last element of the one around it; nothing if there is
none. -/
def closeList? (b : Brackets) : Option Brackets :=
  match b.around with
  | [] => none
  | outer :: around =>
    some { b with current := outer.push (.list b.current.toList), around }

/-- Say of a toggle whether it closes when it is read again. -/
def setToggle (b : Brackets) (c : Char) (closes : Bool) : Brackets :=
  { b with closing := fun x => if x = c then closes else b.closing x }

/-- Read a delimiter; nothing if it closes the outermost list. -/
def delimiter? (d : Delimiters) (b : Brackets) (c : Char) : Option Brackets :=
  match d.role? c with
  | none => some (b.append #[strayForm c])
  | some .opens => some b.openList
  | some .closes => b.closeList?
  | some .toggles =>
    if b.closing c then b.closeList?.map (·.setToggle c false)
    else some (b.openList.setToggle c true)

/-- The outermost list after every open list ends. -/
def finish (b : Brackets) : Array Form :=
  b.around.foldl (fun inner outer => outer.push (.list inner.toList)) b.current

end Brackets

/-- Run the machine on tokens, to the outermost list. -/
def runBrackets (d : Delimiters) : List Token → Brackets → Array Form
  | [], b => b.finish
  | .value v :: ts, b => runBrackets d ts (b.append #[.atom v])
  | .splice inner :: ts, b => runBrackets d ts (b.append (runBrackets d inner .start))
  | .delimiter c :: ts, b =>
    match b.delimiter? d c with
    | none => b.current
    | some b => runBrackets d ts b
termination_by ts => sizeOf ts

end WordStack
