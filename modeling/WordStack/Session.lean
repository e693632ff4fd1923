import WordStack.Machine.Evaluation

/-!
# Sessions

A session holds one machine, runs programs on it one at a time, and lets others look at the run,
resume it, and call back into it. Everything that a run can do alone it does at once: it stops only
where it is paused or where an observer has to take something, so at any time a session shows what
the others see once the run has come to rest.

While a run is in progress the interpreter belongs to it: others see the published snapshot. At its
end a run publishes a last snapshot, serves the callbacks that were asked for, gives the interpreter
free, and gives notice that it is over.
-/

namespace WordStack

/-- What has become of a callback that was run from outside of the session. -/
abbrev CallbackResult := Except CallbackError (Option Value)

/-- A thread that uses a session. -/
structure ThreadId where
  number : Nat
  deriving DecidableEq, Repr, Inhabited

/-- A run in progress: whether it evaluates the program or only reads it, and who was evaluating
when it began. -/
structure RunInProgress where
  evaluates : Bool
  evaluatorBefore : Option ThreadId
  deriving Inhabited

structure Session where
  config : Config
  machine : Machine
  /-- The run that has the interpreter. -/
  busy : Option RunInProgress := none
  /-- The thread that evaluates. -/
  evaluator : Option ThreadId := none
  /-- Notices about runs that are over, which the observer has to take. -/
  parting : List Event := []
  /-- The result of the last run that ended. -/
  outcome : Option (Except EvalError Unit) := none
  /-- How many callbacks were asked for. -/
  tickets : Nat := 0
  /-- Callbacks that were answered at once. -/
  settled : List (Nat × CallbackResult) := []
  /-- The owner has given the session up. -/
  dropped : Bool := false

namespace Session

/-- A new session. Unless its callbacks are `attached`, only the host calls that get them can run
them. -/
def new (c : Config) (attached : Bool) (store : Store) : Except EvalError Session :=
  match Interp.new c store with
  | .error e => .error e
  | .ok i =>
    let setting := { i.setting with attached }
    .ok { config := c, machine := .ofInterp { i with setting } c.dispatch }

/-- Act on the interpreter. -/
def onInterp {α : Type} (s : Session) (act : Eval α) : Except EvalError α × Session :=
  let (r, m) := s.machine.onInterp act
  (r, { s with machine := m })

/-! ## Runs -/

/-- Let an idle machine serve the callbacks that were asked for. -/
def serveAll (fuel : Nat) : Nat → Machine → Machine
  | 0, m => m
  | n + 1, m =>
    match m.requests with
    | [] => m
    | r :: requests => serveAll fuel n (({ m with requests }.serve r).run fuel)

/-- End a run with its result. -/
def finish (fuel : Nat) (s : Session) (run : RunInProgress) (r : Except EvalError Unit) : Session :=
  let m := { s.machine with status := .proceeding, running := false }.publish
  let m := serveAll fuel (m.requests.length + 1) m
  let s := { s with
    machine := m, busy := none, evaluator := run.evaluatorBefore, outcome := some r }
  let told := run.evaluates || !r.isOk
  let notice := Event.terminating (match r with
    | .ok () => none
    | .error e => some e)
  if !told then s
  else if m.observed then { s with parting := s.parting ++ [notice] }
  else { s with machine := m.queue notice }

/-- Let the run go on until it is over, paused, or offers something to the observer. -/
def settle (fuel : Nat) (s : Session) : Session :=
  let s := { s with machine := s.machine.run fuel }
  match s.busy, s.machine.outcome? with
  | some run, some r => s.finish fuel run r
  | _, _ => s

/-- Start a run on a thread: with new code if there is any, from a clean state. -/
def start (fuel : Nat) (s : Session) (thread : ThreadId) (code : Option String)
    (evaluates : Bool) : Except SessionError Session :=
  if s.machine.running then .error .alreadyRunning
  else
    let i := match code with
      | some code => s.machine.interp.setCode code
      | none => s.machine.interp
    let m := { s.machine with interp := i, running := true }.reset
    let s := { s with
      machine := m, busy := some ⟨evaluates, s.evaluator⟩, evaluator := some thread }
    match s.onInterp Interp.loadRoot with
    | (.ok root, s) =>
      if evaluates then .ok ({ s with machine := s.machine.enter root [] }.settle fuel)
      else .ok (s.settle fuel)
    | (.error e, s) =>
      .ok ({ s with machine := { s.machine with status := .raising e } }.settle fuel)

/-- The text that a name stands for. -/
def code (s : Session) (name : String) : Except EvalError String := s.config.folder.read name

/-- Run the current code on a thread. -/
def run (fuel : Nat) (s : Session) (thread : ThreadId) : Except SessionError Session :=
  s.start fuel thread none true

/-- Run other code on a thread, or only read it. -/
def runCode (fuel : Nat) (s : Session) (thread : ThreadId) (name : String) (evaluates : Bool) :
    Except SessionError Session :=
  match s.code name with
  | .error e => .error (.eval e)
  | .ok code => s.start fuel thread (some code) evaluates

/-- Make other code the current one and read it, but do not evaluate it. -/
def load (s : Session) (name : String) : Except SessionError ListId × Session :=
  if s.machine.running then (.error .alreadyRunning, s)
  else
    match s.code name with
    | .error e => (.error (.eval e), s)
    | .ok code =>
      let s := { s with
        machine := { s.machine with interp := s.machine.interp.setCode code } }
      match s.onInterp Interp.loadRoot with
      | (.error e, s) => (.error (.eval e), s)
      | (.ok root, s) => (.ok root, { s with machine := s.machine.publish })

/-! ## Looking at a run -/

/-- The present state where the interpreter is free, else what the run published last. -/
def snapshot (s : Session) : Snapshot :=
  if s.busy.isNone then s.machine.snapshot else s.machine.published

/-- Let a paused run go on. -/
def resume (fuel : Nat) (s : Session) (stepNext : Bool) : Bool × Session :=
  let (wasPaused, m) := s.machine.resume stepNext
  (wasPaused, { s with machine := m }.settle fuel)

/-! ## The observer -/

/-- The next notice, as far as there is one: what is queued, then what is offered. Host calls that
come before it are run here, at most `n` of them. -/
def receive (fuel : Nat) : Nat → Session → Option Event × Session
  | 0, s => (none, s)
  | n + 1, s =>
    match s.machine.outbox.queued[0]? with
    | some e =>
      let outbox := { s.machine.outbox with queued := s.machine.outbox.queued.eraseIdxIfInBounds 0 }
      (some e, { s with machine := { s.machine with outbox } })
    | none =>
      match s.parting with
      | e :: parting => (some e, { s with parting })
      | [] =>
        match s.machine.status with
        | .offering _ =>
          let (e, m) := s.machine.take
          let s := { s with machine := m }.settle fuel
          match e with
          | some e => (some e, s)
          | none => receive fuel n s
        | _ => (none, s)

/-- The next notice, if there is one. -/
def next (fuel : Nat) (s : Session) : Option Event × Session := s.receive fuel fuel

/-- Every notice that there is, at most `n` of them. -/
def drain (fuel : Nat) : Nat → Session → List Event → List Event × Session
  | 0, s, out => (out.reverse, s)
  | n + 1, s, out =>
    match s.next fuel with
    | (some e, s) => drain fuel n s (e :: out)
    | (none, s) => (out.reverse, s)

/-- The observer is gone. -/
def dropObserver (fuel : Nat) (s : Session) : Session :=
  { s with machine := s.machine.dropObserver, parting := [] }.settle fuel

/-! ## Callbacks from outside -/

/-- The owner has given the session up, and no run holds on to it. -/
def isGone (s : Session) : Bool := s.dropped && s.busy.isNone && s.parting.isEmpty

/-- The answer to a request that was served. -/
def answer? (s : Session) (ticket : Nat) : Option CallbackResult :=
  match s.settled.find? (·.1 == ticket) with
  | some (_, r) => some r
  | none =>
    (s.machine.answers.find? (·.1 == ticket)).map fun (_, r) =>
      r.mapError fun e => .failed e.message

/-- Serve a callback on the thread that asks for it, which evaluates meanwhile. -/
def serveHere (fuel : Nat) (s : Session) (thread : ThreadId) (r : Request) : Session :=
  let evaluator := s.evaluator
  let s := { s with evaluator := some thread }
  { s with machine := (s.machine.serve r).run fuel, evaluator }

/-- Ask for a callback to be run. It is refused where it cannot be run; it is run at once where the
interpreter is free, and else by the run at its next chance. The answer comes under a number. -/
def invoke (fuel : Nat) (s : Session) (thread : ThreadId) (c : Callback) (args : Array Value) :
    Nat × Session :=
  let ticket := s.tickets
  let s := { s with tickets := ticket + 1 }
  let refuse (e : CallbackError) : Session :=
    { s with settled := (ticket, .error e) :: s.settled }
  if args.size ≠ c.signature.arity then
    (ticket, refuse (.arity c.signature.arity args.size))
  else if !c.attached || s.isGone then (ticket, refuse .detached)
  else if s.evaluator = some thread then (ticket, refuse .reentrant)
  else if s.machine.gate.paused then (ticket, refuse .paused)
  else
    let request : Request := ⟨c, args, ticket⟩
    if s.busy.isNone then (ticket, s.serveHere fuel thread request)
    else (ticket, { s with machine := s.machine.request request })

end Session

end WordStack
