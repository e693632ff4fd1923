import WordStack.Interp

/-!
# Snapshots

What a debugger shows of an interpreter: the operands, the frames from the innermost one out with
what was put in the scope of each, and the program.
-/

namespace WordStack

/-- A frame with the names put in its scope, in their order. -/
structure FrameView where
  items : ListId
  cursor : Option Value
  put : List (String × Value)
  deriving Inhabited

structure Snapshot where
  stack : Array Value
  frames : List FrameView
  root : ListId
  running : Bool
  paused : Bool
  deriving Inhabited

/-- The element at which the innermost walk is. -/
def Snapshot.cursor? (s : Snapshot) : Option Value := s.frames.head?.bind (·.cursor)

/-- A frame as a debugger shows it; a scope that is left by now shows no names. -/
def Interp.viewFrame (i : Interp) (f : Frame) : FrameView where
  items := f.items
  cursor := f.cursor
  put := ((i.putWords.scope? f.putScope).map (·.toList)).getD []

/-- The interpreter as a debugger shows it. -/
def Interp.snapshot (i : Interp) (running paused : Bool) : Snapshot where
  stack := i.stack.values
  frames := i.calls.innermostFirst.map i.viewFrame
  root := i.root
  running
  paused

/-- A snapshot of nothing, with an empty list for the program. -/
def Snapshot.empty (root : ListId) : Snapshot := ⟨#[], [], root, false, false⟩

end WordStack
