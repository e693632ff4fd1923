import WordStack.Proofs.Agreement
import WordStack.Proofs.Notices
import WordStack.Proofs.Sessions

/-!
# The course of a run

A session that runs programs is at rest, or a run of it is in progress. At rest its machine has
nothing to do, nobody has asked it for anything, and it neither runs nor is paused (`AtRest`). A run
begins from there with the program that has been read. Then `Course` says where it stands, and what
the observer has been told: ordinary notices on the way and, when the session is at rest again, one
last notice with the result. Whatever is loaded, run and resumed, it comes back to rest
(`Reached.atRest`).
-/

namespace WordStack

/-! ## Machines in order -/

namespace Machine

variable {m : Machine} {c : Config} {attached : Bool}

/-- The machine is set up as configured, and nobody but the run itself and the debugger has a hand
in what it does: no callback was asked for from outside, and none is served for someone else in the
end. -/
structure InOrder (c : Config) (attached : Bool) (m : Machine) : Prop where
  setting : m.interp.setting = ⟨c.registry, c.delimiters, c.folder, c.loadDepth, attached⟩
  limit : m.interp.calls.limit = c.callDepth
  dispatch : m.outbox.dispatch = c.dispatch
  listening : m.outbox.listening = true
  held : m.HeldAtPause
  serves : (m.control m.tasks).servesAtEnd = false
  unasked : m.Inherits (fun _ => True) (fun _ => False) []
  answers : m.answers = []

theorem InOrder.requests (h : m.InOrder c attached) : m.requests = [] :=
  List.eq_nil_iff_forall_not_mem.2 h.unasked.requests

theorem InOrder.move (h : m.InOrder c attached) (hn : ∀ r, ¬ m.Returned [] r) {x : Move}
    (hx : x.Steady) : (m.move x).InOrder c attached := by
  have hkept := m.move_persists x
  have hreports := h.held.move hx
  have hlistening := congrArg Outbox.listening hreports.way
  have hdispatch := congrArg Outbox.dispatch hreports.way
  obtain ⟨hunasked, new, hanswers, hnew⟩ :=
    h.unasked.move HostProgram.hereditary_true hn x fun r hr => by
      subst hr
      exact hx
  obtain rfl : new = [] := List.eq_nil_iff_forall_not_mem.2 hnew
  exact ⟨hkept.setting.trans h.setting, hkept.limit.trans h.limit, hdispatch.trans h.dispatch,
    hlistening.trans h.listening, hreports.held, (move_serves x hn).trans h.serves, hunasked,
    by rw [hanswers, h.answers, List.append_nil]⟩

theorem Run.inOrder {xs : List Move} {m' : Machine} (h : Run [] m xs m')
    (hx : ∀ x ∈ xs, x.Steady) (hm : m.InOrder c attached) : m'.InOrder c attached := by
  induction h with
  | refl => exact hm
  | @snoc m₁ xs x _ hn ih => exact (ih fun y hy => hx y (by simp [hy])).move hn (hx x (by simp))

/-- Steps bring nothing to the observer. -/
theorem heard_steps {xs : List Move} (h : ∀ x ∈ xs, x = .step) (m : Machine) : m.heard xs = [] := by
  induction xs generalizing m with
  | nil => rfl
  | cons x xs ih =>
    obtain ⟨rfl, hxs⟩ := List.forall_mem_cons.1 h
    exact ih hxs _

/-- Steps of a machine in order leave it in order, and say only what is ordinary. -/
theorem InOrder.run (h : m.InOrder c attached) (fuel : Nat) :
    (m.run fuel).InOrder c attached ∧ m.Reports (m.run fuel) [] := by
  obtain ⟨xs, hxs, hrun⟩ := run_steps fuel m
  have hrun : Run [] m xs (m.run fuel) := hrun (.refl m)
  have hsteady : ∀ x ∈ xs, x.Steady := fun x hx => by
    rw [hxs x hx]
    trivial
  have hreports := hrun.reports hsteady h.held
  rw [heard_steps hxs] at hreports
  exact ⟨hrun.inOrder hsteady h, hreports⟩

/-- The machine has nothing to do, as if no run had ever been. A run leaves of itself at most
operands, frames, put names, a step for the debugger to come and notices. -/
structure Rested (c : Config) (attached : Bool) (m : Machine) : Prop where
  setting : m.interp.setting = ⟨c.registry, c.delimiters, c.folder, c.loadDepth, attached⟩
  limit : m.interp.calls.limit = c.callDepth
  tasks : m.tasks = []
  status : m.status = .proceeding
  serving : m.serving = false
  paused : m.gate.paused = false
  dispatch : m.outbox.dispatch = c.dispatch
  listening : m.outbox.listening = true
  requests : m.requests = []
  answers : m.answers = []
  running : m.running = false

/-- A machine in order whose run is over has nothing to do any more. -/
theorem InOrder.rested {r : Except EvalError Unit} (h : m.InOrder c attached)
    (hr : m.Returned [] r) :
    { m with status := .proceeding, running := false }.Rested c attached where
  setting := h.setting
  limit := h.limit
  tasks := hr.1
  status := rfl
  serving := by
    have hserves := h.serves
    rwa [Control.servesAtEnd, control_tasks, hr.1] at hserves
  paused := (h.held.awake hr.phase).free
  dispatch := h.dispatch
  listening := h.listening
  requests := h.requests
  answers := h.answers
  running := rfl

theorem Rested.queue (h : m.Rested c attached) (e : Event) : (m.queue e).Rested c attached := by
  unfold Machine.queue
  split
  · exact ⟨h.setting, h.limit, h.tasks, h.status, h.serving, h.paused, h.dispatch, h.listening,
      h.requests, h.answers, h.running⟩
  · exact h

/-- Where a run has begun, at most the walk of the program is left to be done. -/
theorem Rested.begins (h : m.Rested c attached) {i : Interp}
    (hsetting : i.setting = m.interp.setting) (hlimit : i.calls.limit = m.interp.calls.limit)
    (ts : List Task) (hts : ts = [] ∨ ∃ items, ts = [.walk items 0]) (status : Status) :
    { m with interp := i, tasks := ts, status, gate := {}, running := true }.InOrder c
      attached := by
  have hserves : ts.foldl Task.servingAfter m.serving = m.serving := by
    obtain rfl | ⟨items, rfl⟩ := hts <;> rfl
  have hsatisfied : ∀ t ∈ ts, t.Satisfies (fun _ => True) fun _ => False := by
    obtain rfl | ⟨items, rfl⟩ := hts <;> simp [Task.Satisfies]
  exact
    { setting := hsetting.trans h.setting
      limit := hlimit.trans h.limit
      dispatch := h.dispatch
      listening := h.listening
      held := fun hp => by cases hp
      serves := hserves.trans h.serving
      unasked := ⟨i.setting.registry.satisfies_true, by simp [h.requests], ts, by simp, hsatisfied⟩
      answers := h.answers }

end Machine

/-! ## The beginning of a run -/

namespace Interp

/-- The interpreter with the code that is to run, and nothing left of the last run. -/
def prepared (i : Interp) (code : Option String) : Interp :=
  (match code with
    | some code => i.setCode code
    | none => i).reset

theorem loadRoot_setting (i : Interp) : (loadRoot i).2.setting = i.setting := by
  have hforms := (edits_readForms i.code i).1.persists.setting
  rcases hread : readForms i.code i with ⟨e | forms, j⟩
  · rw [hread] at hforms
    rw [loadRoot_of_unread hread]
    exact hforms
  · rw [hread] at hforms
    rw [loadRoot_of_read hread]
    exact hforms

end Interp

/-- The machine where a run begins, after the program has been read. -/
def Machine.launched (m : Machine) (code : Option String) (evaluates : Bool) : Machine :=
  let (r, interp) := Interp.loadRoot (m.interp.prepared code)
  let m := { m with interp, running := true, gate := {} }
  match r with
  | .error e => { m with status := .raising e }
  | .ok root => if evaluates then m.enter root [] else m

/-- Before a run its machine is in order, and only reading is over already. -/
theorem Machine.Rested.launched {m : Machine} {c : Config} {attached : Bool}
    (h : m.Rested c attached) (code : Option String) (evaluates : Bool) :
    (m.launched code evaluates).InOrder c attached ∧
      (evaluates = false → ∃ r, (m.launched code evaluates).Returned [] r) ∧
      (m.launched code evaluates).pending = m.outbox.queued.toList := by
  unfold Machine.launched
  rcases hread : Interp.loadRoot (m.interp.prepared code) with ⟨r, i⟩
  have hsetting : i.setting = m.interp.setting := by
    have hkept := Interp.loadRoot_setting (m.interp.prepared code)
    rw [hread] at hkept
    exact hkept.trans (by cases code <;> rfl)
  have hlimit : i.calls.limit = m.interp.calls.limit := by
    have hkept := Interp.loadRoot_calls (m.interp.prepared code)
    rw [hread] at hkept
    exact (congrArg CallStack.limit hkept).trans (by cases code <;> rfl)
  have hidle := h.begins hsetting hlimit m.tasks (.inl h.tasks)
  rcases r with e | root
  · exact ⟨hidle _, fun _ => ⟨.error e, h.tasks, rfl⟩, List.append_nil _⟩
  · cases evaluates
    · exact ⟨hidle _, fun _ => ⟨.ok (), h.tasks, h.status⟩, by simp [Machine.pending, h.status]⟩
    · dsimp only
      rw [if_pos rfl]
      unfold Machine.enter
      have hpushed := CallStack.push_limit i.calls root (i.putWords.depth - 1)
      rcases hpush : i.calls.push root (i.putWords.depth - 1) with ⟨e | _, calls⟩ <;>
        rw [hpush] at hpushed
      · have hbegun := h.begins (i := { i with calls }) hsetting (hpushed.trans hlimit)
          m.tasks (.inl h.tasks) (.raising e)
        exact ⟨hbegun, fun he => (by cases he), List.append_nil _⟩
      · have hbegun := h.begins (i := { i with calls }) hsetting (hpushed.trans hlimit)
          (.walk root 0 :: m.tasks) (.inr ⟨root, by rw [h.tasks]⟩) m.status
        exact ⟨hbegun, fun he => (by cases he), by simp [Machine.pending, h.status]⟩

/-- The debugger lets the run go on, or the observer receives a notice. -/
def Intervention.Attends : Intervention → Prop
  | .resume _ | .next => True
  | _ => False

/-- What a run can give notice of on its way: nothing, if it only reads the program. -/
def RunInProgress.Gives (run : RunInProgress) (es : List Event) : Prop :=
  (∀ e ∈ es, e.Ordinary) ∧ (run.evaluates = false → es = [])

namespace Session

variable {c : Config} {attached : Bool} {s : Session} {run : RunInProgress}
  {before told : List Event} {fuel : Nat} {thread : ThreadId} {code : Option String}
  {evaluates : Bool}

/-- The session where a run begins, after the program has been read. -/
def launched (s : Session) (thread : ThreadId) (code : Option String) (evaluates : Bool) :
    Session :=
  { s with
    machine := s.machine.launched code evaluates
    busy := some ⟨evaluates, s.evaluator⟩
    evaluator := some thread }

theorem start_eq (h : s.machine.running = false) : s.start fuel thread code evaluates =
    .ok ((s.launched thread code evaluates).settle fuel) := by
  unfold start launched Machine.launched
  rw [if_neg (by simp [h])]
  -- the text to run is chosen first, in both
  cases code <;>
    simp only [onInterp, Machine.onInterp, Machine.reset, Interp.prepared] <;>
    generalize Interp.loadRoot _ = out <;>
    obtain ⟨e | root, i⟩ := out <;>
    cases evaluates <;> rfl

/-! ## Sessions at rest -/

/-- Nobody has asked the session for a callback, and its owner has not given it up. -/
structure Unasked (c : Config) (s : Session) : Prop where
  config : s.config = c
  tickets : s.tickets = 0
  settled : s.settled = []
  dropped : s.dropped = false

/-- No run is in progress. -/
structure AtRest (c : Config) (attached : Bool) (s : Session) : Prop where
  unasked : s.Unasked c
  machine : s.machine.Rested c attached
  busy : s.busy = none
  evaluator : s.evaluator = none

/-- The run that was in progress, if there was one, is over, and so is the notice of its end. -/
structure Finished (s : Session) : Prop where
  busy : s.busy = none
  parting : s.parting = []

theorem AtRest.with_machine (h : s.AtRest c attached) {m : Machine} (hm : m.Rested c attached) :
    { s with machine := m }.AtRest c attached :=
  ⟨{ h.unasked with }, hm, h.busy, h.evaluator⟩

theorem AtRest.waits (h : s.AtRest c attached) : s.machine.waits = true := by
  rw [Machine.waits, h.machine.tasks, h.machine.status]

/-- Without a run nothing goes on. -/
theorem AtRest.settle (h : s.AtRest c attached) : s.settle fuel = s := by
  unfold Session.settle
  dsimp only
  rw [Machine.run_of_waits h.waits]
  split
  · next hbusy _ => cases h.busy.symm.trans hbusy
  · rfl

theorem AtRest.undelivered (h : s.AtRest c attached) :
    s.undelivered = s.machine.outbox.queued.toList ++ s.parting := by
  simp [Session.undelivered, Machine.pending, h.machine.status]

variable (fuel) in
/-- A debugger that finds no run leaves at most a step behind. -/
theorem AtRest.resume (h : s.AtRest c attached) (stepNext : Bool) :
    (s.resume fuel stepNext).2 =
        { s with machine := { s.machine with gate := ⟨false, stepNext⟩ } } ∧
      (s.resume fuel stepNext).2.AtRest c attached := by
  have hrested : Machine.Rested c attached { s.machine with gate := ⟨false, stepNext⟩ } :=
    { h.machine with paused := rfl }
  have hback := h.with_machine hrested
  have heq : (s.resume fuel stepNext).2 =
      { s with machine := { s.machine with gate := ⟨false, stepNext⟩ } } := by
    simp only [Session.resume, Machine.resume, h.machine.status]
    rw [← h.machine.status]
    exact hback.settle
  exact ⟨heq, heq ▸ hback⟩

variable (fuel) in
theorem AtRest.receive (h : s.AtRest c attached) (n : Nat) :
    (s.receive fuel n).2.AtRest c attached ∧ (s.receive fuel n).2.outcome = s.outcome ∧
      (s.receive fuel n).1.toList ++ (s.receive fuel n).2.undelivered = s.undelivered := by
  cases n with
  | zero => exact ⟨h, rfl, rfl⟩
  | succ n =>
    have hu := h.undelivered
    unfold Session.receive
    split
    · next e hq =>
      have hrested : Machine.Rested c attached { s.machine with outbox := { s.machine.outbox with
          queued := s.machine.outbox.queued.eraseIdxIfInBounds 0 } } := { h.machine with }
      have hback := h.with_machine hrested
      refine ⟨hback, rfl, ?_⟩
      rw [hu, hback.undelivered]
      rcases hlist : s.machine.outbox.queued with ⟨_ | ⟨e', queued⟩⟩
      · simp [hlist] at hq
      · obtain rfl : e' = e := by simpa [hlist] using hq
        simp [Array.eraseIdxIfInBounds]
    · next hq =>
      have hq : s.machine.outbox.queued = #[] := by simpa using hq
      split
      · next e parting hp =>
        have hback : { s with parting }.AtRest c attached :=
          ⟨{ h.unasked with }, h.machine, h.busy, h.evaluator⟩
        refine ⟨hback, rfl, ?_⟩
        rw [hu, hback.undelivered, hp]
        simp [hq]
      · rw [h.machine.status]
        exact ⟨h, rfl, rfl⟩

/-! ## New sessions, and programs that are loaded -/

theorem new_atRest {store : Store} (h : Session.new c attached store = .ok s) :
    s.AtRest c attached ∧ s.parting = [] := by
  unfold Session.new at h
  split at h
  · cases h
  · next i hi =>
    cases h
    have hkept := Interp.new_persists hi
    have hsetting : { i.setting with attached } =
        ⟨c.registry, c.delimiters, c.folder, c.loadDepth, attached⟩ := by
      rw [hkept.setting]
      rfl
    exact ⟨⟨⟨rfl, rfl, rfl, rfl⟩, ⟨hsetting, hkept.limit, rfl, rfl, rfl, rfl, rfl, rfl, rfl, rfl,
      rfl⟩, rfl, rfl⟩, rfl⟩

/-- What is loaded is read by the interpreter alone. -/
theorem load_cases (s : Session) (name : String) : (s.load name).2 = s ∨
    ∃ code published, (s.load name).2 = { s with machine := { s.machine with
      interp := (Interp.loadRoot (s.machine.interp.setCode code)).2, published } } := by
  unfold load
  split
  · exact .inl rfl
  · split
    · exact .inl rfl
    · next code _ =>
      refine .inr ⟨code, ?_⟩
      simp only [onInterp, Machine.onInterp]
      generalize Interp.loadRoot _ = out
      obtain ⟨e | root, i⟩ := out
      · exact ⟨_, rfl⟩
      · exact ⟨_, rfl⟩

theorem load_undelivered (s : Session) (name : String) :
    (s.load name).2.undelivered = s.undelivered := by
  obtain hs | ⟨code, published, hs⟩ := s.load_cases name
  · rw [hs]
  · rw [hs]
    rfl

theorem AtRest.load (h : s.AtRest c attached) (name : String) :
    (s.load name).2.AtRest c attached := by
  obtain hs | ⟨code, published, hs⟩ := s.load_cases name
  · rwa [hs]
  · rw [hs]
    have hrested : Machine.Rested c attached { s.machine with
        interp := (Interp.loadRoot (s.machine.interp.setCode code)).2, published } :=
      { h.machine with
        setting := (Interp.loadRoot_setting _).trans h.machine.setting
        limit := (congrArg CallStack.limit (Interp.loadRoot_calls _)).trans h.machine.limit }
    exact h.with_machine hrested

/-! ## The course of a run -/

/-- The run is in progress. The observer has been told the notices `told` since it began, when he
had yet to receive those `before`. -/
structure Underway (c : Config) (attached : Bool) (run : RunInProgress) (before told : List Event)
    (s : Session) : Prop where
  unasked : s.Unasked c
  order : s.machine.InOrder c attached
  busy : s.busy = some run
  parting : s.parting = []
  reads : run.evaluates = false → ∃ r, s.machine.Returned [] r
  notices : ∃ es, run.Gives es ∧ told ++ s.machine.pending = before ++ es

/-- The run is over, and has given its result and its last notice. -/
structure Over (c : Config) (attached : Bool) (run : RunInProgress) (before told : List Event)
    (s : Session) : Prop where
  rest : s.AtRest c attached
  ended : ∃ es r, run.Gives es ∧ s.outcome = some r ∧
    told ++ s.undelivered = before ++ es ++ farewell run r

/-- The run is in progress and its machine not done, or the run is over. -/
inductive Course (c : Config) (attached : Bool) (run : RunInProgress) (before told : List Event)
    (s : Session) : Prop where
  | underway (h : s.Underway c attached run before told) (going : ∀ r, ¬ s.machine.Returned [] r)
  | finished (h : s.Over c attached run before told)

/-- The machine as it is left at the end of a run. -/
def ended (s : Session) : Machine :=
  { s.machine with status := .proceeding, running := false }.publish

theorem finish_eq (run : RunInProgress) (r : Except EvalError Unit) (hq : s.machine.requests = []) :
    s.finish fuel run r =
      let s' := { s with
        machine := s.ended, busy := none, evaluator := run.evaluatorBefore, outcome := some r }
      match farewell run r with
      | [] => s'
      | e :: _ =>
        if s.ended.observed then { s' with parting := s.parting ++ [e] }
        else { s' with machine := s.ended.queue e } := by
  have hserved : serveAll fuel (s.ended.requests.length + 1) s.ended = s.ended := by
    have hrequests : s.ended.requests = [] := hq
    rw [serveAll, hrequests]
  unfold ended at hserved ⊢
  unfold finish farewell
  dsimp only
  rw [hserved]
  cases run.evaluates || !r.isOk <;> rfl

theorem Underway.finish {r : Except EvalError Unit} (h : s.Underway c attached run before told)
    (hr : s.machine.Returned [] r) (hrun : run.evaluatorBefore = none) :
    (s.finish fuel run r).Over c attached run before told := by
  have hrested : s.ended.Rested c attached := { h.order.rested hr with }
  obtain ⟨es, hes, hnotices⟩ := h.notices
  refine ⟨?_, es, r, hes, ?_, ?_⟩
  · rw [finish_eq run r h.order.requests]
    dsimp only
    split
    · exact ⟨{ h.unasked with }, hrested, rfl, hrun⟩
    · split
      · exact ⟨{ h.unasked with }, hrested, rfl, hrun⟩
      · exact ⟨{ h.unasked with }, hrested.queue _, rfl, hrun⟩
  · rw [finish_eq run r h.order.requests]
    dsimp only
    split
    · rfl
    · split <;> rfl
  · rw [undelivered_finish fuel run hr h.order.requests h.order.listening h.parting,
      ← List.append_assoc, hnotices]

/-- The machine has gone on. -/
theorem Underway.go (h : s.Underway c attached run before told)
    (hn : ∀ r, ¬ s.machine.Returned [] r) {m : Machine} {more : List Event}
    (hm : m.InOrder c attached) (hr : s.machine.Reports m more) :
    { s with machine := m }.Underway c attached run before (told ++ more) := by
  obtain ⟨es, ⟨hes, hreads⟩, hnotices⟩ := h.notices
  obtain ⟨es', hes', hpending⟩ := hr.pending
  have hevaluates (he : run.evaluates = false) : False :=
    have ⟨r, hr⟩ := h.reads he
    hn r hr
  refine ⟨{ h.unasked with }, hm, h.busy, h.parting, fun he => (hevaluates he).elim, es ++ es',
    ⟨fun e he => (List.mem_append.1 he).elim (hes e) (hes' e), fun he => (hevaluates he).elim⟩, ?_⟩
  rw [List.append_assoc, hpending, ← List.append_assoc, hnotices, List.append_assoc]

variable (fuel) in
theorem Underway.settle (h : s.Underway c attached run before told)
    (hrun : run.evaluatorBefore = none) : (s.settle fuel).Course c attached run before told := by
  have hsteps : { s with machine := s.machine.run fuel }.Underway c attached run before told := by
    by_cases hret : ∃ r, s.machine.Returned [] r
    · obtain ⟨r, hr⟩ := hret
      rwa [Machine.run_of_waits (Machine.waits_of_returned hr)]
    · obtain ⟨horder, hreports⟩ := h.order.run fuel
      have hgone := h.go (fun r hr => hret ⟨r, hr⟩) horder hreports
      rwa [List.append_nil] at hgone
  unfold Session.settle
  dsimp only
  split
  · next run' r hbusy hr =>
    obtain rfl : run' = run := Option.some.inj (hbusy.symm.trans h.busy)
    exact .finished (hsteps.finish (Machine.returned_of_outcome hr) hrun)
  · next hnot =>
    exact .underway hsteps fun r hr => hnot run r h.busy (Machine.outcome_of_returned hr)

theorem Underway.move (h : s.Underway c attached run before told)
    (hn : ∀ r, ¬ s.machine.Returned [] r) {x : Move} (hx : x.Steady) :
    { s with machine := s.machine.move x }.Underway c attached run before
      (told ++ (s.machine.notice? x).toList) :=
  h.go hn (h.order.move hn hx) (h.order.held.move hx)

section Course

variable (hrun : run.evaluatorBefore = none)

theorem Over.receive (h : s.Over c attached run before told) (n : Nat) :
    (s.receive fuel n).2.Over c attached run before (told ++ (s.receive fuel n).1.toList) := by
  obtain ⟨es, r, hes, hr, hnotices⟩ := h.ended
  obtain ⟨hrest, houtcome, hundelivered⟩ := h.rest.receive fuel n
  refine ⟨hrest, es, r, hes, houtcome.trans hr, ?_⟩
  rw [List.append_assoc, hundelivered, hnotices]

theorem Over.resume (h : s.Over c attached run before told) (stepNext : Bool) :
    (s.resume fuel stepNext).2.Over c attached run before told := by
  obtain ⟨es, r, hes, hr, hnotices⟩ := h.ended
  obtain ⟨heq, hrest⟩ := h.rest.resume fuel stepNext
  refine ⟨hrest, es, r, hes, ?_, ?_⟩
  · rwa [heq]
  · rw [heq]
    exact hnotices

include hrun

theorem Course.receive (h : s.Course c attached run before told) (n : Nat) :
    (s.receive fuel n).2.Course c attached run before (told ++ (s.receive fuel n).1.toList) := by
  -- the run can come to its end before the observer has received anything
  induction n generalizing s told with
  | zero => rwa [Session.receive, Option.toList_none, List.append_nil]
  | succ n ih =>
    cases h with
    | finished h => exact .finished (h.receive _)
    | underway h hn =>
      unfold Session.receive
      split
      · next e hq =>
        have hreceived := h.move hn (x := .receive) trivial
        simp only [Machine.move, Machine.notice?, Machine.receive, hq] at hreceived
        exact .underway hreceived hn
      · next hq =>
        split
        · next hp => cases h.parting.symm.trans hp
        · split
          · next w hoffer =>
            have hreceived := h.move hn (x := .receive) trivial
            simp only [Machine.move, Machine.notice?, Machine.receive, hq] at hreceived
            have hnext := hreceived.settle fuel hrun
            dsimp only
            split
            · next e he =>
              rw [he] at hnext
              exact hnext
            · next he =>
              rw [he, Option.toList_none, List.append_nil] at hnext
              exact ih hnext
          · rw [Option.toList_none, List.append_nil]
            exact .underway h hn

theorem Course.resume (h : s.Course c attached run before told) (stepNext : Bool) :
    (s.resume fuel stepNext).2.Course c attached run before told := by
  cases h with
  | finished h => exact .finished (h.resume stepNext)
  | underway h hn =>
    have hresumed : (s.resume fuel stepNext).2.Course c attached run before (told ++ []) :=
      (h.move hn (x := .resume stepNext) trivial).settle fuel hrun
    rwa [List.append_nil] at hresumed

end Course

/-! ## Interventions between and during runs -/

/-- The notice that an intervention brings to the observer. -/
def notice? (fuel : Nat) (s : Session) : Intervention → Option Event
  | .next => (s.next fuel).1
  | _ => none

/-- The notices that a row of interventions brings to the observer. -/
def heard (fuel : Nat) (s : Session) : List Intervention → List Event
  | [] => []
  | x :: xs => (s.notice? fuel x).toList ++ (s.intervene fuel x).heard fuel xs

theorem Course.intervene (h : s.Course c attached run before told)
    (hrun : run.evaluatorBefore = none) {x : Intervention} (hx : x.Attends) :
    (s.intervene fuel x).Course c attached run before (told ++ (s.notice? fuel x).toList) := by
  cases x with
  | resume stepNext =>
    have htold : told ++ (s.notice? fuel (.resume stepNext)).toList = told := List.append_nil told
    rw [htold]
    exact h.resume hrun stepNext
  | next => exact h.receive hrun fuel
  | dropObserver => exact hx.elim
  | invoke thread c args => exact hx.elim

variable (fuel) in
theorem Course.interventions (h : s.Course c attached run before told)
    (hrun : run.evaluatorBefore = none) {xs : List Intervention} (hx : ∀ x ∈ xs, x.Attends) :
    (xs.foldl (Session.intervene fuel) s).Course c attached run before
      (told ++ s.heard fuel xs) := by
  induction xs generalizing s told with
  | nil => rwa [heard, List.append_nil]
  | cons x xs ih =>
    obtain ⟨hx, hxs⟩ := List.forall_mem_cons.1 hx
    rw [heard, ← List.append_assoc]
    exact ih (h.intervene hrun hx) hxs

theorem AtRest.intervene (h : s.AtRest c attached) {x : Intervention} (hx : x.Attends) :
    (s.intervene fuel x).AtRest c attached := by
  cases x with
  | resume stepNext => exact (h.resume fuel stepNext).2
  | next => exact (h.receive fuel fuel).1
  | dropObserver => exact hx.elim
  | invoke thread c args => exact hx.elim

/-! ## Histories -/

variable (thread code evaluates) in
theorem AtRest.launched (h : s.AtRest c attached) (hp : s.parting = []) :
    (s.launched thread code evaluates).Underway c attached ⟨evaluates, none⟩ s.undelivered [] := by
  obtain ⟨horder, hreads, hpending⟩ := h.machine.launched code evaluates
  refine ⟨{ h.unasked with }, horder, ?_, hp, hreads, [], ⟨by simp, fun _ => rfl⟩, ?_⟩
  · simp [Session.launched, h.evaluator]
  · rw [h.undelivered, hp]
    simpa [Session.launched] using hpending

/-- What is reached from a new session by loading programs, by runs of which each is finished before
the next begins, and by a debugger and an observer who attend to them. -/
inductive Reached (c : Config) (attached : Bool) : Session → Prop
  | new {store : Store} {s : Session} : Session.new c attached store = .ok s → Reached c attached s
  | load {s : Session} (name : String) : Reached c attached s → s.busy = none →
      Reached c attached (s.load name).2
  | start {s s' : Session} (fuel : Nat) (thread : ThreadId) (code : Option String)
      (evaluates : Bool) : Reached c attached s → s.Finished →
      s.start fuel thread code evaluates = .ok s' → Reached c attached s'
  | attend {s : Session} (fuel : Nat) {x : Intervention} : Reached c attached s → x.Attends →
      Reached c attached (s.intervene fuel x)

theorem Course.atRest (h : s.Course c attached run before told) (hb : s.busy = none) :
    s.AtRest c attached := by
  cases h with
  | finished h => exact h.rest
  | underway h _ => cases h.busy.symm.trans hb

theorem Reached.course (h : s.Reached c attached) : s.AtRest c attached ∨
    ∃ run before told, run.evaluatorBefore = none ∧ s.Course c attached run before told := by
  induction h with
  | new h => exact .inl (new_atRest h).1
  | load name _ hb ih =>
    obtain h | ⟨run, before, told, hrun, h⟩ := ih
    · exact .inl (h.load name)
    · exact .inl ((h.atRest hb).load name)
  | start fuel thread code evaluates _ hf hs ih =>
    have hrest : AtRest c attached _ := ih.elim id fun ⟨_, _, _, _, h⟩ => h.atRest hf.busy
    rw [start_eq hrest.machine.running] at hs
    cases hs
    exact .inr ⟨_, _, _, rfl, (hrest.launched _ _ _ hf.parting).settle _ rfl⟩
  | attend fuel _ hx ih =>
    obtain h | ⟨run, before, told, hrun, h⟩ := ih
    · exact .inl (h.intervene hx)
    · exact .inr ⟨run, before, _, hrun, h.intervene hrun hx⟩

/-- Whatever the history, between runs a session is at rest. -/
theorem Reached.atRest (h : s.Reached c attached) (hb : s.busy = none) : s.AtRest c attached :=
  h.course.elim id fun ⟨_, _, _, _, h⟩ => h.atRest hb

end Session

end WordStack
