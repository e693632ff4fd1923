import WordStack.Proofs.Control

/-!
# Debugging changes nothing

What a program does cannot depend on where it is paused. A machine is `calm` when whoever it waits
for has answered and nothing of the debugger's is left on it. Between calm machines a run is a row
of steps that the debugger has no part in, so any two runs that begin alike are the same row
(`rehearsed`), however often they were paused in between.
-/

namespace WordStack

/-- A move that neither asks for a callback from outside nor drops the observer. -/
def Move.Steady : Move → Prop
  | .step | .receive | .resume _ => True
  | _ => False

def Event.isStepping : Event → Bool
  | .stepping => true
  | _ => false

/-- The notices but for those that the debugger has stepped. -/
def apartFromStepping (es : List Event) : List Event := es.filter (!·.isStepping)

namespace Machine

/-! ## Machines that the debugger alone tells apart -/

/-- `m` is `n` but for the debugger's hold, the snapshot that is left for others to see, and the
notices `q` that were queued before. -/
def Alike (q : Array Event) (m n : Machine) : Prop :=
  ∃ gate published, m =
    { n with gate, published, outbox := { n.outbox with queued := q ++ n.outbox.queued } }

section Alike

variable {q : Array Event} {m n : Machine}

theorem Alike.interp_eq (h : Alike q m n) : m.interp = n.interp := by
  obtain ⟨g, p, rfl⟩ := h
  rfl

theorem Alike.before (h : Alike q m n) (t : Task) : Alike q (m.before t) (n.before t) := by
  obtain ⟨g, p, rfl⟩ := h
  exact ⟨g, p, rfl⟩

theorem Alike.with_interp (h : Alike q m n) (i : Interp) :
    Alike q { m with interp := i } { n with interp := i } := by
  obtain ⟨g, p, rfl⟩ := h
  exact ⟨g, p, rfl⟩

theorem Alike.with_tasks (h : Alike q m n) (tasks : List Task) :
    Alike q { m with tasks } { n with tasks } := by
  obtain ⟨g, p, rfl⟩ := h
  exact ⟨g, p, rfl⟩

theorem Alike.with_status (h : Alike q m n) (status : Status) :
    Alike q { m with status } { n with status } := by
  obtain ⟨g, p, rfl⟩ := h
  exact ⟨g, p, rfl⟩

theorem Alike.enter (h : Alike q m n) (items : ListId) (after : List Task) :
    Alike q (m.enter items after) (n.enter items after) := by
  obtain ⟨g, p, rfl⟩ := h
  unfold Machine.enter
  dsimp only
  rcases n.interp.calls.push items (n.interp.putWords.depth - 1) with ⟨_ | _, calls⟩ <;>
    exact ⟨g, p, rfl⟩

theorem Alike.deliver (h : Alike q m n) (r : Except EvalError (Option Value)) (reply : Reply) :
    Alike q (m.deliver r reply) (n.deliver r reply) := by
  obtain ⟨g, p, rfl⟩ := h
  cases reply <;> exact ⟨g, p, rfl⟩

theorem Alike.callback (h : Alike q m n) (c : Callback) (args : Array Value) (reply : Reply)
    (serving : Bool) :
    Alike q (m.callback c args reply serving) (n.callback c args reply serving) := by
  unfold Machine.callback
  split
  · obtain ⟨g, p, rfl⟩ := h
    refine Alike.enter ?_ _ _
    exact ⟨g, p, rfl⟩
  · exact h.deliver _ _

theorem Alike.endCallback (h : Alike q m n) (depth : Nat) (servingBefore : Bool) (reply : Reply)
    (r : Except EvalError (Option Value)) :
    Alike q (m.endCallback depth servingBefore reply r)
      (n.endCallback depth servingBefore reply r) := by
  obtain ⟨g, p, rfl⟩ := h
  refine Alike.deliver ?_ _ _
  exact ⟨g, p, rfl⟩

theorem Alike.queue (h : Alike q m n) (e : Event) : Alike q (m.queue e) (n.queue e) := by
  obtain ⟨g, p, rfl⟩ := h
  unfold Machine.queue
  dsimp only
  split
  · refine ⟨g, p, ?_⟩
    simp only [Array.append_push]
  · exact ⟨g, p, rfl⟩

theorem Alike.observed_eq (h : Alike q m n) : m.observed = n.observed := by
  obtain ⟨g, p, rfl⟩ := h
  rfl

theorem Alike.notify (h : Alike q m n) (e : Event) : Alike q (m.notify e) (n.notify e) := by
  unfold Machine.notify
  rw [h.observed_eq]
  split
  · exact h.with_status _
  · exact h.queue e

theorem Alike.pause (h : Alike q m n) (e : Event) : Alike q (m.pause e) (n.pause e) := by
  unfold Machine.pause
  have hq : Alike q { m with gate := { m.gate with paused := true } }.publish
      { n with gate := { n.gate with paused := true } }.publish := by
    obtain ⟨g, p, rfl⟩ := h
    exact ⟨_, _, rfl⟩
  have ho := hq.observed_eq
  have hq' := (hq.queue e).with_status .paused
  obtain ⟨g, p, rfl⟩ := h
  dsimp only [publish] at *
  split
  · exact ⟨g, p, rfl⟩
  · split
    · exact ⟨_, _, rfl⟩
    · rw [ho]
      split
      · exact ⟨_, _, rfl⟩
      · exact hq'

theorem Alike.marshal (h : Alike q m n) (call : HostCall) (keep : Bool) :
    Alike q (m.marshal call keep) (n.marshal call keep) := by
  have ho := h.observed_eq
  obtain ⟨g, p, rfl⟩ := h
  unfold Machine.marshal
  dsimp only
  rw [ho]
  split <;> exact ⟨g, p, rfl⟩

theorem Alike.follow (h : Alike q m n) (next : Next) : Alike q (m.follow next) (n.follow next) := by
  cases next with
  | done => exact h
  | walk items after => exact h.enter items after
  | pause => exact h.pause _
  | write channel message => exact h.notify _
  | call call keep => exact h.marshal call keep

theorem Alike.act (h : Alike q m n) (word : Eval Next) : Alike q (m.act word) (n.act word) := by
  unfold Machine.act
  rw [h.interp_eq]
  split
  · next next i _ => exact (h.with_interp i).follow next
  · next e i _ => exact (h.with_interp i).with_status _

theorem Alike.serve (h : Alike q m n) (r : Request) : Alike q (m.serve r) (n.serve r) :=
  h.callback _ _ _ _

theorem Alike.callbackFromMember (h : Alike q m n) (site : CallSite) (c : Callback)
    (args : Array Value) (k : Except CallbackError (Option Value) → HostProgram (Option Value)) :
    Alike q (m.callbackFromMember site c args k) (n.callbackFromMember site c args k) := by
  unfold Machine.callbackFromMember
  split
  · exact h.before _
  · split
    · exact h.before _
    · split
      · exact h.before _
      · exact h.callback _ _ _ _

theorem Alike.member (h : Alike q m n) (site : CallSite) (program : HostProgram (Option Value)) :
    Alike q (m.member site program) (n.member site program) := by
  cases program with
  | done r =>
    obtain ⟨g, p, rfl⟩ := h
    simp only [Machine.member]
    split <;> exact ⟨g, p, rfl⟩
  | fail e => exact h.with_status _
  | read k =>
    obtain ⟨g, p, rfl⟩ := h
    exact ⟨g, p, rfl⟩
  | write f k =>
    obtain ⟨g, p, rfl⟩ := h
    exact ⟨g, p, rfl⟩
  | call c args k =>
    obtain ⟨g, p, rfl⟩ := h
    exact Alike.callback (n := n) ⟨g, p, rfl⟩ c args _ _
  | invoke c args k => exact h.callbackFromMember site c args k

/-- An element is processed in the same way where the debugger lets it. -/
theorem Alike.element (h : Alike q m n) (v : Value) (hm : m.breaksIn = false)
    (hn : n.breaksIn = false) : Alike q (m.element v) (n.element v) := by
  have hr : m.requests = n.requests := by
    obtain ⟨g, p, rfl⟩ := h
    rfl
  cases hrn : n.requests with
  | nil =>
    rw [element_of_not_breaksIn v (hr.trans hrn) hm, element_of_not_breaksIn v hrn hn]
    exact h.act _
  | cons r requests =>
    rw [element_of_request v (hr.trans hrn), element_of_request v hrn]
    obtain ⟨g, p, rfl⟩ := h
    exact Alike.serve (n := { n with requests }.before (.element v)) ⟨g, p, rfl⟩ r

/-- The debugger has a say in a step only where it is before an element. -/
theorem Alike.perform (h : Alike q m n) (t : Task)
    (ht : ∀ v, t = .element v → m.breaksIn = false ∧ n.breaksIn = false) :
    Alike q (m.perform t) (n.perform t) := by
  cases t with
  | walk items position =>
    obtain ⟨g, p, rfl⟩ := h
    simp only [Machine.perform]
    split <;> exact ⟨g, p, rfl⟩
  | element v => exact h.element v (ht v rfl).1 (ht v rfl).2
  | leaveScope =>
    obtain ⟨g, p, rfl⟩ := h
    exact ⟨g, p, rfl⟩
  | callback returns depth servingBefore reply =>
    simp only [Machine.perform]
    rw [h.interp_eq]
    exact (h.with_interp _).endCallback _ _ _ _
  | member site program =>
    have hr : m.requests = n.requests := by
      obtain ⟨g, p, rfl⟩ := h
      rfl
    simp only [Machine.perform]
    rw [hr]
    split
    · next r requests _ _ =>
      obtain ⟨g, p, rfl⟩ := h
      exact Alike.serve (n := { n with requests }.before (.member site program)) ⟨g, p, rfl⟩ r
    · exact h.member site program
  | _ =>
    rw [perform_of_word rfl, perform_of_word rfl]
    exact h.act _

theorem Alike.unwind (h : Alike q m n) (e : EvalError) (t : Task) :
    Alike q (m.unwind e t) (n.unwind e t) := by
  unfold Machine.unwind
  split
  · obtain ⟨g, p, rfl⟩ := h
    exact ⟨g, p, rfl⟩
  · exact h.endCallback _ _ _ _
  · exact h

theorem Alike.step (h : Alike q m n)
    (ht : ∀ v ts, n.status = .proceeding → n.tasks = .element v :: ts →
      m.breaksIn = false ∧ n.breaksIn = false) :
    Alike q m.step n.step := by
  obtain ⟨g, p, rfl⟩ := h
  unfold Machine.step
  dsimp only at ht ⊢
  split
  · next t tasks hsn htn =>
    refine Alike.perform (n := { n with tasks }) ⟨g, p, rfl⟩ t fun v hv => ?_
    exact ht v tasks hsn (by rw [htn, hv])
  · next e t tasks _ _ => exact Alike.unwind (n := { n with tasks }) ⟨g, p, rfl⟩ e t
  · exact ⟨g, p, rfl⟩

end Alike

/-! ## Calm machines -/

/-- Whoever the machine waits for has answered: a pause is over, a notice has been received, a host
call has begun. -/
def answered (m : Machine) : Machine :=
  match m.status with
  | .paused | .offering (.event _ _) => { m with status := .proceeding }
  | .offering (.job site call) =>
    { m with status := .proceeding }.before
      (.member { site with remote := true } (m.interp.setting.registry.invoke call))
  | _ => m

/-- The machine when it waits for nobody, the debugger has let go of it and no notice is queued. -/
def calm (m : Machine) : Machine :=
  { m.answered with
    gate := {}, outbox := { m.outbox with queued := #[] }, published := .empty ⟨0⟩ }

/-- The notices that the observer has not received yet. -/
def pending (m : Machine) : List Event :=
  m.outbox.queued.toList ++ match m.status with
    | .offering (.event e _) => [e]
    | _ => []

section Calm

variable {q : Array Event} {m n : Machine}

theorem Alike.calm_eq (h : Alike q m n) : m.calm = n.calm := by
  obtain ⟨g, p, rfl⟩ := h
  obtain ⟨_, _, status, _, _, _, _, _, _, _⟩ := n
  rcases status with _ | _ | _ | (_ | _) <;> rfl

theorem Alike.pending_eq (h : Alike q m n) : m.pending = q.toList ++ n.pending := by
  obtain ⟨g, p, rfl⟩ := h
  simp [pending]

theorem alike_calm (h : m.status.phase ≠ .waiting) : Alike m.outbox.queued m m.calm := by
  obtain ⟨_, _, status, _, g, _, _, _, _, p⟩ := m
  refine ⟨g, p, ?_⟩
  rcases status with _ | _ | _ | (_ | _)
  · simp [calm, answered]
  · simp [calm, answered]
  · exact absurd rfl h
  · exact absurd rfl h
  · exact absurd rfl h

theorem breaksIn_calm (m : Machine) : m.calm.breaksIn = false := by
  simp [breaksIn, calm]

theorem calm_calm (m : Machine) : m.calm.calm = m.calm := by
  obtain ⟨_, _, status, _, _, _, _, _, _, _⟩ := m
  rcases status with _ | _ | _ | (_ | _) <;> rfl

/-! ## What the observer and the debugger do -/

theorem calm_receive (m : Machine) : m.receive.2.calm = m.calm := by
  obtain ⟨_, _, status, _, ⟨paused, _⟩, ⟨_, _, queued⟩, _, _, _, _⟩ := m
  unfold receive
  dsimp only
  split
  · rcases status with _ | _ | _ | (_ | _) <;> rfl
  · rcases status with _ | _ | _ | (⟨_, pauses⟩ | _)
    · rfl
    · rfl
    · rfl
    · cases pauses <;> cases paused <;> rfl
    · rfl

theorem pending_receive (m : Machine) : m.receive.1.toList ++ m.receive.2.pending = m.pending := by
  obtain ⟨_, _, status, _, ⟨paused, _⟩, ⟨_, _, ⟨queued⟩⟩, _, _, _, _⟩ := m
  cases queued with
  | nil =>
    rcases status with _ | _ | _ | (⟨_, pauses⟩ | _)
    · rfl
    · rfl
    · rfl
    · cases pauses <;> cases paused <;> rfl
    · rfl
  | cons e queued => simp [receive, pending, Array.eraseIdxIfInBounds]

theorem calm_resume (m : Machine) (stepNext : Bool) : (m.resume stepNext).2.calm = m.calm := by
  obtain ⟨_, _, status, _, _, _, _, _, _, _⟩ := m
  rcases status with _ | _ | _ | (_ | _) <;> rfl

theorem pending_resume (m : Machine) (stepNext : Bool) :
    (m.resume stepNext).2.pending = m.pending := by
  obtain ⟨_, _, status, _, _, _, _, _, _, _⟩ := m
  rcases status with _ | _ | _ | (_ | _) <;> rfl

end Calm

/-! ## Moves of a debugged machine -/

/-- The machine is at the calm one: it is that one when it is calm, or the debugger has come in
before an element that the calm one is at. -/
inductive Shadows : Machine → Machine → Prop where
  | calm (m : Machine) : Shadows m m.calm
  | stopped {m : Machine} {v : Value} {ts : List Task} : m.tasks = .resolve v :: ts →
      m.requests = [] → m.answered = { m with status := .proceeding } →
      Shadows m { m with tasks := .element v :: ts }.calm

/-- The calm machine stays, or it makes a step and gives the notices. -/
def Goes (c c' : Machine) (es : List Event) : Prop :=
  c' = c ∧ es = [] ∨ c' = c.step.calm ∧ es = c.step.pending

/-- After the move the machine is at the calm machine `c` or at the next one, with the same notices
apart from those about steps. -/
def Keeps (m c : Machine) (x : Move) : Prop :=
  ∃ c' es, Goes c c' es ∧ Shadows (m.move x) c' ∧
    apartFromStepping ((m.notice? x).toList ++ (m.move x).pending) =
      apartFromStepping (m.pending ++ es)

variable {m c : Machine}

theorem Keeps.stays {x : Move} (h : Shadows (m.move x) c)
    (hp : (m.notice? x).toList ++ (m.move x).pending = m.pending) : Keeps m c x :=
  ⟨c, [], .inl ⟨rfl, rfl⟩, h, by rw [hp, List.append_nil]⟩

theorem apartFromStepping_append (es fs : List Event) :
    apartFromStepping (es ++ fs) = apartFromStepping es ++ apartFromStepping fs :=
  List.filter_append ..

/-- The debugger comes in before an element. -/
theorem keeps_stepping {v : Value} {ts : List Task} (hs : m.status = .proceeding)
    (ht : m.tasks = .element v :: ts) (hb : m.breaksIn = true) : Keeps m m.calm .step := by
  obtain ⟨i, tasks, status, serving, ⟨paused, stepNext⟩, ⟨dispatch, listening, queued⟩, requests,
    _, _, _⟩ := m
  obtain rfl : status = .proceeding := hs
  obtain rfl : tasks = .element v :: ts := ht
  obtain ⟨rfl, rfl, rfl⟩ := breaksIn_iff.1 hb
  cases listening <;> cases dispatch <;>
    exact ⟨_, [], .inl ⟨rfl, rfl⟩, @Shadows.stopped _ v ts rfl rfl rfl,
      by simp [move, notice?, step, perform, element, before, pause, publish, observed, queue,
        pending, apartFromStepping, Event.isStepping]⟩

theorem keeps_of_alike (hs : m.status.phase ≠ .waiting)
    (h : Alike m.outbox.queued m.step c.step) : Keeps m c .step := by
  have hp : m.pending = m.outbox.queued.toList := by
    obtain ⟨_, _, status, _, _, _, _, _, _, _⟩ := m
    rcases status with _ | _ | _ | (_ | _) <;> simp [pending]
    exact hs rfl
  refine ⟨_, _, .inr ⟨rfl, rfl⟩, ?_, ?_⟩
  · rw [← h.calm_eq]
    exact .calm m.step
  · rw [hp, ← h.pending_eq]
    rfl

/-- A step that the debugger has no part in is one of the calm machine. -/
theorem keeps_step (hs : m.status.phase ≠ .waiting)
    (hb : ∀ v ts, m.status = .proceeding → m.tasks = .element v :: ts → m.breaksIn = false) :
    Keeps m m.calm .step := by
  have h := alike_calm hs
  refine keeps_of_alike hs (h.step fun v ts hcs hct => ⟨?_, m.breaksIn_calm⟩)
  obtain ⟨g, p, he⟩ := h
  exact hb v ts (by rw [he, hcs]) (by rw [he, hct])

section Stopped

variable {v : Value} {ts : List Task}

/-- A machine that the debugger has stopped before an element neither unwinds nor offers a call. -/
theorem shadows_receive (ht : m.tasks = .resolve v :: ts) (hr : m.requests = [])
    (ha : m.answered = { m with status := .proceeding }) :
    Shadows m.receive.2 { m with tasks := .element v :: ts }.calm := by
  obtain ⟨_, tasks, status, _, ⟨paused, _⟩, ⟨_, _, queued⟩, requests, _, _, _⟩ := m
  obtain rfl : tasks = .resolve v :: ts := ht
  obtain rfl : requests = [] := hr
  unfold receive
  dsimp only
  rcases status with _ | e | _ | (⟨e, pauses⟩ | ⟨site, call⟩)
  · split <;> exact @Shadows.stopped _ v ts rfl rfl rfl
  · simp [answered] at ha
  · split <;> exact @Shadows.stopped _ v ts rfl rfl rfl
  · split
    · exact @Shadows.stopped _ v ts rfl rfl rfl
    · cases pauses <;> cases paused <;> exact @Shadows.stopped _ v ts rfl rfl rfl
  · simp [answered, before] at ha

theorem shadows_resume (stepNext : Bool) (ht : m.tasks = .resolve v :: ts) (hr : m.requests = [])
    (ha : m.answered = { m with status := .proceeding }) :
    Shadows (m.resume stepNext).2 { m with tasks := .element v :: ts }.calm := by
  obtain ⟨_, tasks, status, _, _, _, requests, _, _, _⟩ := m
  obtain rfl : tasks = .resolve v :: ts := ht
  obtain rfl : requests = [] := hr
  rcases status with _ | e | _ | (⟨e, pauses⟩ | ⟨site, call⟩)
  · exact @Shadows.stopped _ v ts rfl rfl rfl
  · simp [answered] at ha
  · exact @Shadows.stopped _ v ts rfl rfl rfl
  · exact @Shadows.stopped _ v ts rfl rfl rfl
  · simp [answered, before] at ha

/-- Where the debugger has come in before an element, the element is processed without it. -/
theorem keeps_resolve (hs : m.status = .proceeding) (ht : m.tasks = .resolve v :: ts)
    (hr : m.requests = []) : Keeps m { m with tasks := .element v :: ts }.calm .step := by
  let n : Machine := { m with tasks := .element v :: ts }
  have hn : n.calm.status = .proceeding ∧ n.calm.tasks = .element v :: ts ∧
      n.calm.requests = [] := by
    simp [n, calm, answered, hs, hr]
  have h : Alike m.outbox.queued { m with tasks := ts } { n.calm with tasks := ts } :=
    (alike_calm (m := n) (by simp [n, hs, Status.phase])).with_tasks ts
  have hstep : Alike m.outbox.queued m.step n.calm.step := by
    rw [step_of_proceeding hs ht, step_of_proceeding hn.1 hn.2.1]
    have he : { n.calm with tasks := ts }.element v =
        { n.calm with tasks := ts }.act (Interp.resolve v) :=
      element_of_not_breaksIn v hn.2.2 n.breaksIn_calm
    show Alike _ ({ m with tasks := ts }.act (Interp.resolve v))
      ({ n.calm with tasks := ts }.element v)
    rw [he]
    exact h.act (Interp.resolve v)
  exact keeps_of_alike (by simp [hs, Status.phase]) hstep

end Stopped

/-- A machine that waits for the outside does nothing alone. -/
theorem Shadows.keeps_waiting (h : Shadows m c) (hs : m.status.phase = .waiting) :
    Keeps m c .step := by
  have hstep : m.step = m := step_of_waiting hs
  refine .stays ?_ ?_
  · rwa [move, hstep]
  · rw [move, hstep]
    rfl

/-- Whatever the debugger and the observer do, the machine stays at the calm ones. -/
theorem Shadows.keeps (h : Shadows m c) {x : Move} (hx : x.Steady) : Keeps m c x := by
  cases x with
  | request r => exact hx.elim
  | dropObserver => exact hx.elim
  | receive =>
    refine .stays ?_ (pending_receive m)
    cases h with
    | calm =>
      rw [← calm_receive]
      exact .calm _
    | stopped ht hr ha => exact shadows_receive ht hr ha
  | resume stepNext =>
    refine .stays ?_ (pending_resume m stepNext)
    cases h with
    | calm =>
      rw [← calm_resume]
      exact .calm _
    | stopped ht hr ha => exact shadows_resume stepNext ht hr ha
  | step =>
    by_cases hs : m.status.phase = .waiting
    · exact h.keeps_waiting hs
    cases h with
    | calm =>
      by_cases hb : ∃ v ts, m.status = .proceeding ∧ m.tasks = .element v :: ts ∧
        m.breaksIn = true
      · obtain ⟨v, ts, hp, ht, hb⟩ := hb
        exact keeps_stepping hp ht hb
      · refine keeps_step hs fun v ts hp ht => ?_
        exact Bool.eq_false_iff.2 fun hne => hb ⟨v, ts, hp, ht, hne⟩
    | stopped ht hr ha =>
      obtain ⟨e | _, hret⟩ := returned_of_phase hs rfl
      · have hp := congrArg Machine.status ha
        simp [answered, hret.2, Status.ofResult] at hp
      · exact keeps_resolve hret.2 ht hr

/-! ## Runs of a debugged machine -/

/-- The calm machine after a number of steps, with the notices that they give. -/
def rehearse (c : Machine) : Nat → Machine × List Event
  | 0 => (c, [])
  | n + 1 =>
    ((c.rehearse n).1.step.calm, (c.rehearse n).2 ++ (c.rehearse n).1.step.pending)

/-- All the notices of a row of moves, those included that the observer has not received yet. -/
def notices (m : Machine) (xs : List Move) : List Event := m.heard xs ++ (xs.foldl move m).pending

theorem Run.notices_eq {rest : List Task} {xs : List Move} {m₁ : Machine}
    (h : Run rest m xs m₁) : m.notices xs = m.heard xs ++ m₁.pending := by
  rw [notices, ← h.eq_foldl]

theorem Run.notices_snoc {rest : List Task} {xs : List Move} {m₁ : Machine}
    (h : Run rest m xs m₁) (x : Move) :
    m.notices (xs ++ [x]) = m.heard xs ++ ((m₁.notice? x).toList ++ (m₁.move x).pending) := by
  rw [notices, h.heard_snoc, List.foldl_append, ← h.eq_foldl, List.append_assoc]
  rfl

theorem Returned.answered_eq {rest : List Task} {r : Except EvalError Unit}
    (h : m.Returned rest r) : m.answered = m := by
  unfold answered
  rw [h.2]
  cases r <;> rfl

/-- Once nothing is left to do, a calm machine stays as it is. -/
theorem rehearse_over {n : Nat} {r : Except EvalError Unit} (h : (c.rehearse n).1 = m.calm)
    (hret : m.Returned [] r) (k : Nat) : c.rehearse (n + k) = c.rehearse n := by
  have hm : m.answered = m := Returned.answered_eq hret
  have hstep : m.calm.step = m.calm := step_of_nil (by rw [calm, hm, hret.1])
  have hp : m.calm.pending = [] := by
    simp only [pending, calm, hm, hret.2]
    cases r <;> rfl
  induction k with
  | zero => rfl
  | succ k ih =>
    rw [Nat.add_succ, rehearse, ih, h, hstep, calm_calm, hp, List.append_nil, ← h]

/-- A steady run goes through the calm machines, with their notices. -/
theorem Run.rehearsed {xs : List Move} {m' : Machine} (h : Run [] m xs m')
    (hx : ∀ x ∈ xs, x.Steady) (hm : Shadows m c) :
    ∃ n, Shadows m' (c.rehearse n).1 ∧
      apartFromStepping (m.notices xs) = apartFromStepping (m.pending ++ (c.rehearse n).2) := by
  induction h with
  | refl => exact ⟨0, hm, by simp [notices, heard, rehearse]⟩
  | @snoc m₁ xs x hrun _ ih =>
    obtain ⟨n, hs, hn⟩ := ih fun y hy => hx y (by simp [hy])
    obtain ⟨c', es, hg, hs', hk⟩ := hs.keeps (hx x (by simp))
    have hnotices := calc apartFromStepping (m.notices (xs ++ [x]))
      _ = apartFromStepping (m.heard xs) ++
          apartFromStepping ((m₁.notice? x).toList ++ (m₁.move x).pending) := by
        rw [hrun.notices_snoc, apartFromStepping_append]
      _ = apartFromStepping (m.notices xs) ++ apartFromStepping es := by
        rw [hk, hrun.notices_eq]
        simp only [apartFromStepping_append, List.append_assoc]
      _ = apartFromStepping (m.pending ++ ((c.rehearse n).2 ++ es)) := by
        rw [hn]
        simp only [apartFromStepping_append, List.append_assoc]
    obtain ⟨rfl, rfl⟩ | ⟨rfl, rfl⟩ := hg
    · exact ⟨n, hs', by simpa using hnotices⟩
    · exact ⟨n + 1, hs', hnotices⟩

/-- A run that has returned has come to the calm machine that it is itself, for good. -/
theorem Run.rehearsed_end {xs : List Move} {m' : Machine} {r : Except EvalError Unit}
    (h : Run [] m xs m') (hx : ∀ x ∈ xs, x.Steady) (hret : m'.Returned [] r) :
    ∃ n, (∀ k, (m.calm.rehearse (n + k)).1 = m'.calm) ∧
      ∀ k, apartFromStepping (m.notices xs) =
        apartFromStepping (m.pending ++ (m.calm.rehearse (n + k)).2) := by
  obtain ⟨n, hs, hn⟩ := h.rehearsed hx (.calm m)
  have he : (m.calm.rehearse n).1 = m'.calm := by
    generalize (m.calm.rehearse n).1 = c at hs
    cases hs with
    | calm => rfl
    | stopped ht _ _ => cases hret.1.symm.trans ht
  exact ⟨n, fun k => by rw [rehearse_over he hret, he],
    fun k => by rw [rehearse_over he hret, hn]⟩

/-- Runs that have come to the same calm machine have the same result. -/
theorem eq_of_calm_eq {m₁ m₂ : Machine} {r₁ r₂ : Except EvalError Unit}
    (h : m₁.calm = m₂.calm) (h₁ : m₁.Returned [] r₁) (h₂ : m₂.Returned [] r₂) :
    r₁ = r₂ ∧ m₁.interp = m₂.interp ∧ m₁.answers = m₂.answers := by
  have hs : m₁.calm.status = m₂.calm.status := congrArg Machine.status h
  have hi : m₁.calm.interp = m₂.calm.interp := congrArg Machine.interp h
  have ha : m₁.calm.answers = m₂.calm.answers := congrArg Machine.answers h
  simp only [calm, Returned.answered_eq h₁, Returned.answered_eq h₂] at hs hi ha
  rw [h₁.2, h₂.2] at hs
  refine ⟨?_, hi, ha⟩
  cases r₁ <;> cases r₂ <;> simp_all [Status.ofResult]

/-- Runs from machines that the debugger alone tells apart end alike, with the same notices apart
from those about steps. -/
theorem Alike.runs_agree {k₁ k₂ m₁ m₂ : Machine} {xs₁ xs₂ : List Move}
    {r₁ r₂ : Except EvalError Unit} (h : Alike #[] k₁ k₂) (h₁ : Run [] k₁ xs₁ m₁)
    (h₂ : Run [] k₂ xs₂ m₂) (hx₁ : ∀ x ∈ xs₁, x.Steady) (hx₂ : ∀ x ∈ xs₂, x.Steady)
    (hr₁ : m₁.Returned [] r₁) (hr₂ : m₂.Returned [] r₂) :
    m₁.calm = m₂.calm ∧
      apartFromStepping (k₁.notices xs₁) = apartFromStepping (k₂.notices xs₂) := by
  obtain ⟨n₁, hc₁, hn₁⟩ := h₁.rehearsed_end hx₁ hr₁
  obtain ⟨n₂, hc₂, hn₂⟩ := h₂.rehearsed_end hx₂ hr₂
  rw [← h.calm_eq] at hc₂ hn₂
  have hp : k₁.pending = k₂.pending := h.pending_eq
  constructor
  · rw [← hc₁ n₂, ← hc₂ n₁, Nat.add_comm]
  · rw [hn₁ n₂, hn₂ n₁, hp, Nat.add_comm]

/-- Two runs that begin alike, and of which the debugger may pause each wherever it likes, end with
the same result in the same state, and give the same notices apart from those about steps. -/
theorem schedules_agree {v : Value} {g₁ g₂ : Gate} {xs₁ xs₂ : List Move}
    {r₁ r₂ : Except EvalError Unit} {m₁ m₂ : Machine} (ht : m.tasks = [])
    (hx₁ : ∀ x ∈ xs₁, x.Steady) (hx₂ : ∀ x ∈ xs₂, x.Steady)
    (h₁ : Evaluates { m with gate := g₁ } v xs₁ r₁ m₁)
    (h₂ : Evaluates { m with gate := g₂ } v xs₂ r₂ m₂) :
    r₁ = r₂ ∧ m₁.interp = m₂.interp ∧ m₁.answers = m₂.answers ∧
      apartFromStepping (notices ({ m with gate := g₁ }.act (Interp.walkValue v [])) xs₁) =
        apartFromStepping (notices ({ m with gate := g₂ }.act (Interp.walkValue v [])) xs₂) := by
  obtain ⟨_, tasks, _, _, _, _, _, _, _, _⟩ := m
  obtain rfl : tasks = [] := ht
  have hgates (i : Machine) : Alike #[] { i with gate := g₁ } { i with gate := g₂ } :=
    ⟨g₁, i.published, by simp⟩
  obtain ⟨hc, hn⟩ := ((hgates _).act (Interp.walkValue v [])).runs_agree h₁.run h₂.run hx₁ hx₂
    h₁.returned h₂.returned
  obtain ⟨hr, hi, ha⟩ := eq_of_calm_eq hc h₁.returned h₂.returned
  exact ⟨hr, hi, ha, hn⟩

/-- One run goes straight on, the other is paused before its only element. -/
theorem schedules_agree_on_a_value :
    ∃ m₁ m₂, Evaluates { idle with gate := {} } (.boolean true) [.step, .step, .step] (.ok ()) m₁ ∧
      Evaluates { idle with gate := ⟨false, true⟩ } (.boolean true)
        [.step, .step, .receive, .resume true, .step, .step] (.ok ()) m₂ ∧
      m₁.interp = m₂.interp := by
  have h₁ : Evaluates { idle with gate := {} } (.boolean true) [.step, .step, .step] (.ok ()) _ :=
    ⟨rfl, run_of_stopsInTime rfl, rfl, rfl⟩
  have h₂ : Evaluates { idle with gate := ⟨false, true⟩ } (.boolean true)
      [.step, .step, .receive, .resume true, .step, .step] (.ok ()) _ :=
    ⟨rfl, run_of_stopsInTime rfl, rfl, rfl⟩
  have ht : idle.tasks = [] := rfl
  have agree := schedules_agree ht (by simp [Move.Steady]) (by simp [Move.Steady]) h₁ h₂
  exact ⟨_, _, h₁, h₂, agree.2.1⟩

end Machine

end WordStack
