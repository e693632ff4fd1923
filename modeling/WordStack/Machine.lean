import WordStack.Interp.Loading
import WordStack.Interp.Words
import WordStack.Snapshot

/-!
# The machine

The interpreter's state with the tasks that are left, and all that a debugger and an observer have
to do with a run. One step performs the next task or, after an error, drops it. A machine waits
when it is done, when it is paused, and when an observer has to take what it offers.

Where an observer dispatches, notices and host calls are offered to the observer, one at a time. A
callback that is served for someone else is different: its host calls run on the spot, its notices
are queued and its pauses are skipped, because the observer may be the one who waits for it.
-/

namespace WordStack

/-- What an observer is told. -/
inductive Event where
  | breaking
  | stepping
  | output (channel : OutputChannel) (message : String)
  | terminating (error : Option EvalError)
  deriving Inhabited

/-- What waits for the observer to take it. -/
inductive Offer where
  /-- A notice, after which the run may pause. -/
  | event (e : Event) (pauses : Bool)
  /-- A host call, which the observer runs. -/
  | job (site : CallSite) (call : HostCall)

inductive Status where
  | proceeding
  | raising (e : EvalError)
  | paused
  | offering (o : Offer)

/-- The debugger's hold on a run: whether it is paused, and whether it pauses before the next
element. -/
structure Gate where
  paused : Bool := false
  stepNext : Bool := false
  deriving DecidableEq, Repr, Inhabited

/-- The way to the observer: how it dispatches, whether it still listens, and what it has not yet
received. -/
structure Outbox where
  dispatch : Dispatch
  listening : Bool := true
  queued : Array Event := #[]
  deriving Inhabited

/-- A callback that someone outside of the run wants to be served. -/
structure Request where
  callback : Callback
  args : Array Value
  ticket : Nat
  deriving Inhabited

structure Machine where
  interp : Interp
  tasks : List Task := []
  status : Status := .proceeding
  /-- A callback is being served for someone else. -/
  serving : Bool := false
  gate : Gate := {}
  outbox : Outbox
  requests : List Request := []
  answers : List (Nat × Except EvalError (Option Value)) := []
  running : Bool := false
  /-- The last snapshot that was left for others to see. -/
  published : Snapshot

namespace Machine

/-- A machine that has nothing to do, with a list of its own for the empty program. -/
def ofInterp (i : Interp) (dispatch : Dispatch) : Machine where
  interp := { i with store := i.store.addList #[] }
  outbox := { dispatch }
  published := .empty i.store.nextList

/-- Forget what a run has left: operands, frames, scopes and the debugger's hold. -/
def reset (m : Machine) : Machine := { m with interp := m.interp.reset, gate := {} }

/-- Do a task next. -/
def before (m : Machine) (t : Task) : Machine := { m with tasks := t :: m.tasks }

def snapshot (m : Machine) : Snapshot := m.interp.snapshot m.running m.gate.paused

/-- Leave the present snapshot for others to see. -/
def publish (m : Machine) : Machine := { m with published := m.snapshot }

/-! ## Notices, pauses and host calls -/

/-- Queue a notice, if someone listens. -/
def queue (m : Machine) (e : Event) : Machine :=
  if m.outbox.listening then
    { m with outbox := { m.outbox with queued := m.outbox.queued.push e } }
  else m

/-- Whether the observer has to take what the machine gives. -/
def observed (m : Machine) : Bool :=
  m.outbox.dispatch == .observer && m.outbox.listening && !m.serving

/-- Give a notice to the observer. -/
def notify (m : Machine) (e : Event) : Machine :=
  if m.observed then { m with status := .offering (.event e false) } else m.queue e

/-- Pause, unless nobody could resume the run: publish a snapshot, give notice and wait. -/
def pause (m : Machine) (e : Event) : Machine :=
  if m.serving then m
  else
    let m := { m with gate := { m.gate with paused := true } }.publish
    if !m.outbox.listening then { m with gate := { m.gate with paused := false } }
    else if m.observed then { m with status := .offering (.event e true) }
    else { m.queue e with status := .paused }

/-- Begin a host call, at the observer's if it has to take it. -/
def marshal (m : Machine) (call : HostCall) (keep : Bool) : Machine :=
  let site : CallSite := ⟨call.signature m.interp.store, keep, false⟩
  if m.observed then { m with status := .offering (.job site call) }
  else m.before (.member site (m.interp.setting.registry.invoke call))

/-! ## Walks and callbacks -/

/-- Begin to walk a list, before the tasks `after`. -/
def enter (m : Machine) (items : ListId) (after : List Task) : Machine :=
  let (r, calls) := m.interp.calls.push items (m.interp.putWords.depth - 1)
  let m := { m with interp := { m.interp with calls } }
  match r with
  | .ok () => { m with tasks := .walk items 0 :: (after ++ m.tasks) }
  | .error e => { m with tasks := after ++ m.tasks, status := .raising e }

/-- Go on as a word wants it. -/
def follow (m : Machine) : Next → Machine
  | .done => m
  | .walk items after => m.enter items after
  | .pause => m.pause .breaking
  | .write channel message => m.notify (.output channel message)
  | .call call keep => m.marshal call keep

/-- Let a word act on the interpreter, and go on as it wants. -/
def act (m : Machine) (word : Eval Next) : Machine :=
  match word m.interp with
  | (.ok next, i) => { m with interp := i }.follow next
  | (.error e, i) => { m with interp := i, status := .raising e }

/-- Give the result of a callback to who wants it. -/
def deliver (m : Machine) (r : Except EvalError (Option Value)) : Reply → Machine
  | .toMember site k => m.before (.member site (k r))
  | .toCaller ticket => { m with answers := m.answers ++ [(ticket, r)] }

/-- Begin a callback: push its arguments and walk its body. -/
def callback (m : Machine) (c : Callback) (args : Array Value) (reply : Reply) (serving : Bool) :
    Machine :=
  if args.size = c.signature.arity then
    let last := Task.callback c.signature.returns m.interp.calls.depth m.serving reply
    let stack : OperandStack := ⟨m.interp.stack.values ++ args⟩
    { m with interp := { m.interp with stack }, serving }.enter c.body [last]
  else m.deliver (.error (.callback (.arity c.signature.arity args.size))) reply

/-- End a callback: on a failure, drop the frames that it left. -/
def endCallback (m : Machine) (depth : Nat) (servingBefore : Bool) (reply : Reply)
    (r : Except EvalError (Option Value)) : Machine :=
  let calls := match r with
    | .ok _ => m.interp.calls
    | .error _ => m.interp.calls.truncate depth
  { m with interp := { m.interp with calls }, serving := servingBefore,
           status := .proceeding }.deliver r reply

/-- Serve a callback for someone outside of the run. -/
def serve (m : Machine) (r : Request) : Machine :=
  m.callback r.callback r.args (.toCaller r.ticket) true

/-- A callback that a member runs from outside of its host call. It is refused where the run itself
would have to wait for it; at the observer's it is served like any other. -/
def callbackFromMember (m : Machine) (site : CallSite) (c : Callback) (args : Array Value)
    (k : Except CallbackError (Option Value) → HostProgram (Option Value)) : Machine :=
  if args.size ≠ c.signature.arity then
    m.before (.member site (k (.error (.arity c.signature.arity args.size))))
  else if !c.attached then m.before (.member site (k (.error .detached)))
  else if !site.remote then m.before (.member site (k (.error .reentrant)))
  else
    m.callback c args
      (.toMember site fun r => k (r.mapError fun e => .failed e.message)) true

/-! ## Steps -/

/-- Process an element, after the callbacks that were asked for and a step of the debugger. -/
def element (m : Machine) (v : Value) : Machine :=
  match m.requests with
  | r :: requests => { m with requests }.before (.element v) |>.serve r
  | [] =>
    if !m.serving && m.gate.stepNext then
      { m with gate := { m.gate with stepNext := false } }.before (.resolve v) |>.pause .stepping
    else m.act (Interp.resolve v)

/-- Run the program of a host call as far as it goes alone. -/
def member (m : Machine) (site : CallSite) : HostProgram (Option Value) → Machine
  | .done r =>
    match site.keep, r with
    | true, some v => { m with interp := { m.interp with stack := m.interp.stack.push v } }
    | _, _ => m
  | .fail e => { m with status := .raising (.host site.signature e) }
  | .read k => m.before (.member site (k m.interp.store))
  | .write f k =>
    { m with interp := { m.interp with store := f m.interp.store } }.before (.member site k)
  | .call c args k => m.callback c args (.toMember site k) (m.serving || site.remote)
  | .invoke c args k => m.callbackFromMember site c args k

/-- Perform a task. -/
def perform (m : Machine) : Task → Machine
  | .walk items position =>
    match (m.interp.store.items items)[position]? with
    | some v =>
      { m with interp := { m.interp with calls := m.interp.calls.setCursor v },
               tasks := .element v :: .walk items (position + 1) :: m.tasks }
    | none => { m with interp := { m.interp with calls := m.interp.calls.pop } }
  | .element v => m.element v
  | .resolve v => m.act (Interp.resolve v)
  | .leaveScope => { m with interp := { m.interp with putWords := m.interp.putWords.leave } }
  | .branch body => m.act (Interp.branchOn body)
  | .loop condition body => m.act (Interp.loopOn condition body)
  | .again condition body => m.act (Interp.walkValue condition [.loop condition body])
  | .countAbove height => m.act (Interp.countAbove height)
  | .execute name => m.act (Interp.executeCounted name)
  | .makeDelegate => m.act Interp.delegateCounted
  | .callback returns depth servingBefore reply =>
    let (r, i) := Interp.callbackResult returns m.interp
    { m with interp := i }.endCallback depth servingBefore reply r
  | .member site program =>
    match site.remote, m.requests with
    | true, r :: requests => { m with requests }.before (.member site program) |>.serve r
    | _, _ => m.member site program

/-- Drop a task because of an error. Scopes are left, and a callback hands the error on. -/
def unwind (m : Machine) (e : EvalError) : Task → Machine
  | .leaveScope => { m with interp := { m.interp with putWords := m.interp.putWords.leave } }
  | .callback _ depth servingBefore reply => m.endCallback depth servingBefore reply (.error e)
  | _ => m

/-- Do one thing, unless the machine waits. -/
def step (m : Machine) : Machine :=
  match m.status, m.tasks with
  | .proceeding, t :: tasks => { m with tasks }.perform t
  | .raising e, t :: tasks => { m with tasks }.unwind e t
  | _, _ => m

/-- The result of the run, once nothing is left to do. -/
def outcome? (m : Machine) : Option (Except EvalError Unit) :=
  match m.status, m.tasks with
  | .proceeding, [] => some (.ok ())
  | .raising e, [] => some (.error e)
  | _, _ => none

/-- The next step changes nothing. -/
def waits (m : Machine) : Bool :=
  match m.status, m.tasks with
  | .proceeding, _ :: _ => false
  | .raising _, _ :: _ => false
  | _, _ => true

/-- Take steps until the machine waits, at most `fuel` of them. -/
def run : Nat → Machine → Machine
  | 0, m => m
  | fuel + 1, m => if m.waits then m else run fuel m.step

theorem step_of_waits {m : Machine} (h : m.waits = true) : m.step = m := by
  unfold waits at h
  unfold step
  split at h <;> simp_all

/-! ## What comes from outside -/

/-- Let a paused run go on, with a pause before the next element if `stepNext`. The answer is
whether it was paused. -/
def resume (m : Machine) (stepNext : Bool) : Bool × Machine :=
  let status := match m.status with
    | .paused => .proceeding
    | s => s
  (m.gate.paused, { m with gate := ⟨false, stepNext⟩, status })

/-- The observer takes what is offered: a notice comes back, a host call begins to run. -/
def take (m : Machine) : Option Event × Machine :=
  match m.status with
  | .offering (.event e pauses) =>
    (some e, { m with status := if pauses && m.gate.paused then .paused else .proceeding })
  | .offering (.job site call) =>
    (none, { m with status := .proceeding }.before
      (.member { site with remote := true } (m.interp.setting.registry.invoke call)))
  | _ => (none, m)

/-- The observer is gone: nobody takes what is offered, and nobody listens any more. -/
def dropObserver (m : Machine) : Machine :=
  let m := { m with outbox := { m.outbox with listening := false } }
  match m.status with
  | .offering (.event _ pauses) =>
    { m with status := .proceeding,
             gate := if pauses then { m.gate with paused := false } else m.gate }
  | .offering (.job site call) =>
    { m with status := .proceeding }.before
      (.member site (m.interp.setting.registry.invoke call))
  | _ => m

/-- Ask for a callback to be served at the next chance. -/
def request (m : Machine) (r : Request) : Machine := { m with requests := m.requests ++ [r] }

end Machine

end WordStack
