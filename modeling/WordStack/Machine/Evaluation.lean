import WordStack.Machine

/-!
# Evaluations

Whole evaluations on a machine that is idle: of a value, of the program, of a program text, and of
a callback. Each runs until the machine waits, in at most `fuel` steps, and has a result unless the
machine then waits for someone else or the steps did not suffice.
-/

namespace WordStack.Machine

/-- Run to the end, and take the result. -/
def finish (fuel : Nat) (m : Machine) : Option (Except EvalError Unit) × Machine :=
  let m := m.run fuel
  match m.outcome? with
  | some r => (some r, { m with status := .proceeding })
  | none => (none, m)

/-- Act on the interpreter alone. -/
def onInterp {α : Type} (m : Machine) (act : Eval α) : Except EvalError α × Machine :=
  let (r, i) := act m.interp
  (r, { m with interp := i })

/-- Act in a new put-scope, which is left afterwards. -/
def inPutScope {α : Type} (m : Machine) (act : Machine → α × Machine) : α × Machine :=
  let enter (i : Interp) : Interp := { i with putWords := i.putWords.enter }
  let leave (i : Interp) : Interp := { i with putWords := i.putWords.leave }
  let (a, m) := act { m with interp := enter m.interp }
  (a, { m with interp := leave m.interp })

/-- Walk a value: a list, or a new list of the value alone. -/
def evaluate (fuel : Nat) (m : Machine) (v : Value) : Option (Except EvalError Unit) × Machine :=
  (m.act (Interp.walkValue v [])).finish fuel

/-- Walk the program. -/
def evaluateRoot (fuel : Nat) (m : Machine) : Option (Except EvalError Unit) × Machine :=
  (m.enter m.interp.root []).finish fuel

/-- Make a text the program and walk it. -/
def runSource (fuel : Nat) (m : Machine) (source : String) :
    Option (Except EvalError Unit) × Machine :=
  match { m with interp := m.interp.setCode source }.onInterp Interp.loadRoot with
  | (.error e, m) => (some (.error e), m)
  | (.ok _, m) => m.evaluateRoot fuel

/-- Run a callback as a part of what runs now. -/
def call (fuel : Nat) (m : Machine) (c : Callback) (args : Array Value) :
    Option (Except EvalError (Option Value)) × Machine :=
  let answers := m.answers
  let m := ({ m with answers := [] }.callback c args (.toCaller 0) m.serving).run fuel
  (m.answers.head?.map (·.2), { m with answers })

end WordStack.Machine
