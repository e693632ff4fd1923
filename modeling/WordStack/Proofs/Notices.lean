import WordStack.Proofs.Pauses
import WordStack.Proofs.Transparency

/-!
# What a run gives notice of

Of the operations of a machine only a few speak to the observer: a word writes, a host call is
offered, a pause begins. `Speaks` says what a task can do there at most. So all that a run gives
notice of, received or not, comes after what there was before it, and is about output and pauses
alone; and the debugger holds a machine only where it is paused (`Run.reports`). Whether a callback
is served for someone else is put back by the task that ends it (`move_serves`).
-/

namespace WordStack

/-- A notice that a run gives on its way. -/
def Event.Ordinary : Event → Prop
  | .terminating _ => False
  | _ => True

/-! ## Callbacks for others -/

/-- Whether a callback is served for someone else when the task is over. -/
def Task.servingAfter (serving : Bool) : Task → Bool
  | .callback _ _ servingBefore _ => servingBefore
  | _ => serving

theorem Task.Plain.servingAfter {t : Task} (h : t.Plain) (serving : Bool) :
    t.servingAfter serving = serving := by
  cases t <;> first | rfl | exact h.elim

theorem servingAfter_plain {ts : List Task} (h : ∀ t ∈ ts, t.Plain) (serving : Bool) :
    ts.foldl Task.servingAfter serving = serving := by
  induction ts with
  | nil => rfl
  | cons t ts ih =>
    obtain ⟨ht, hts⟩ := List.forall_mem_cons.1 h
    rw [List.foldl_cons, ht.servingAfter]
    exact ih hts

namespace Control

variable {k k' : Control}

/-- Whether a callback is served for someone else once all the tasks are over. -/
def servesAtEnd (k : Control) : Bool := k.tasks.foldl Task.servingAfter k.serving

theorem Prepares.serves {after : List Task} (h : k.Prepares after k') :
    after.foldl Task.servingAfter k'.serving = k.serving := by
  cases h with
  | word _ hafter => exact servingAfter_plain hafter _
  | procedure => rfl
  | callback hmore => exact servingAfter_plain hmore _

theorem Aftermath.serves (h : k.Aftermath k') : k'.servesAtEnd = k.servesAtEnd := by
  unfold servesAtEnd
  cases h with
  | plain _ hmore => rw [List.foldl_append, servingAfter_plain hmore]
  | enter hp _ =>
    simp only [List.foldl_cons, List.foldl_append, Task.servingAfter]
    rw [hp.serves]
  | refuse hp _ => simp only [List.foldl_append, hp.serves]

/-- Whoever a callback is served for, its last task goes back to what was served before. -/
theorem Change.serves (h : k.Change k') : k'.servesAtEnd = k.servesAtEnd := by
  cases h with
  | idle | woken | next | ended | leave => rfl
  | begun _ ht => simp only [servesAtEnd, List.foldl_cons, ht.servingAfter]
  | task ht _ ha =>
    rw [ha.serves]
    simp only [servesAtEnd, List.foldl_cons, ht.servingAfter]
  | answer _ _ hmore =>
    simp only [servesAtEnd, List.foldl_cons, List.foldl_append, servingAfter_plain hmore]
    rfl
  | caught _ _ hmore =>
    simp only [servesAtEnd, List.foldl_cons, List.foldl_append, servingAfter_plain hmore]
    rfl
  | @unwind _ t _ _ _ hcallback =>
    have ht : t.servingAfter k'.serving = k'.serving := by
      cases t with
      | callback returns depth serving reply => exact absurd rfl (hcallback _ _ _ _)
      | _ => rfl
    simp only [servesAtEnd, List.foldl_cons, ht]

end Control

namespace Machine

variable {m m' m₁ : Machine}

theorem move_serves (x : Move) (hn : ∀ r, ¬ m.Returned [] r) :
    ((m.move x).control (m.move x).tasks).servesAtEnd = (m.control m.tasks).servesAtEnd := by
  obtain ⟨ts, ht, hc⟩ : Changed [] (m.control m.tasks) (m.move x) :=
    move_change x (List.append_nil _).symm hn
  rw [List.append_nil] at ht
  rw [ht, hc.serves]

/-! ## What the observer is told -/

/-- The machine waits for nobody, and the debugger does not hold it. -/
structure Awake (m : Machine) : Prop where
  phase : m.status.phase ≠ .waiting
  free : m.gate.paused = false

/-- From `m` to `m'` the observer is told nothing. -/
structure Silent (m m' : Machine) : Prop where
  awake : m'.Awake
  stepNext : m'.gate.stepNext = m.gate.stepNext
  outbox : m'.outbox = m.outbox

/-- From `m` to `m'` the observer may have been told something ordinary, in the way in which he is
told all. The debugger holds the machine exactly where a pause begins. -/
structure Speaks (m m' : Machine) : Prop where
  held : m'.gate.paused = true ↔ m'.AtPause
  stepNext : m'.gate.stepNext = m.gate.stepNext
  way : { m'.outbox with queued := m.outbox.queued } = m.outbox
  pending : ∃ es, (∀ e ∈ es, Event.Ordinary e) ∧ m'.pending = m.pending ++ es

theorem pending_of_phase (h : m.status.phase ≠ .waiting) : m.pending = m.outbox.queued.toList := by
  obtain ⟨_, _, status, _, _, _, _, _, _, _⟩ := m
  rcases status with _ | _ | _ | (_ | _) <;> simp [pending]
  exact h rfl

theorem Awake.not_atPause (h : m.Awake) : ¬ m.AtPause := by
  rintro (hp | ⟨e, hp⟩) <;> exact h.phase (by rw [hp, Status.phase])

theorem Silent.trans (h : m.Silent m₁) (h' : m₁.Silent m') : m.Silent m' :=
  ⟨h'.awake, h'.stepNext.trans h.stepNext, h'.outbox.trans h.outbox⟩

theorem Silent.then_speaks (h : m.Silent m₁) (hm : m.Awake) (h' : m₁.Speaks m') : m.Speaks m' := by
  obtain ⟨es, hes, hp⟩ := h'.pending
  refine ⟨h'.held, h'.stepNext.trans h.stepNext, ?_, es, hes, ?_⟩
  · rw [← h.outbox]
    exact h'.way
  · rw [hp, pending_of_phase h.awake.phase, pending_of_phase hm.phase, h.outbox]

theorem Awake.speaks (h : m.Awake) : m.Speaks m :=
  ⟨by simp [h.free, h.not_atPause], rfl, rfl, [], by simp, by simp⟩

theorem Silent.speaks (h : m.Silent m') (hm : m.Awake) : m.Speaks m' :=
  h.then_speaks hm h.awake.speaks

section Silent

variable (hm : m.Awake)

include hm

theorem Awake.before (t : Task) : m.Silent (m.before t) := ⟨⟨hm.phase, hm.free⟩, rfl, rfl⟩

theorem Awake.with_interp (i : Interp) : m.Silent { m with interp := i } :=
  ⟨⟨hm.phase, hm.free⟩, rfl, rfl⟩

theorem Awake.enter (items : ListId) (after : List Task) : m.Silent (m.enter items after) := by
  unfold Machine.enter
  rcases m.interp.calls.push items (m.interp.putWords.depth - 1) with ⟨e | _, calls⟩
  · exact ⟨⟨by simp [Status.phase], hm.free⟩, rfl, rfl⟩
  · exact ⟨⟨hm.phase, hm.free⟩, rfl, rfl⟩

theorem Awake.deliver (r : Except EvalError (Option Value)) (reply : Reply) :
    m.Silent (m.deliver r reply) := by
  cases reply <;> exact ⟨⟨hm.phase, hm.free⟩, rfl, rfl⟩

theorem Awake.callback (c : Callback) (args : Array Value) (reply : Reply) (serving : Bool) :
    m.Silent (m.callback c args reply serving) := by
  unfold Machine.callback
  split
  · have hbegun : m.Silent { m with
        interp := { m.interp with stack := ⟨m.interp.stack.values ++ args⟩ }, serving } :=
      ⟨⟨hm.phase, hm.free⟩, rfl, rfl⟩
    exact hbegun.trans (hbegun.awake.enter _ _)
  · exact hm.deliver _ reply

theorem Awake.served (r : Request) (requests : List Request) (t : Task) :
    m.Silent (({ m with requests }.before t).serve r) := by
  have htaken : m.Silent ({ m with requests }.before t) := ⟨⟨hm.phase, hm.free⟩, rfl, rfl⟩
  exact htaken.trans (htaken.awake.callback _ _ _ _)

theorem Awake.endCallback (depth : Nat) (servingBefore : Bool) (reply : Reply)
    (r : Except EvalError (Option Value)) :
    m.Silent (m.endCallback depth servingBefore reply r) := by
  have hback (calls : CallStack) : m.Silent { m with
      interp := { m.interp with calls }, serving := servingBefore, status := .proceeding } :=
    ⟨⟨by simp [Status.phase], hm.free⟩, rfl, rfl⟩
  unfold Machine.endCallback
  exact (hback _).trans ((hback _).awake.deliver r reply)

theorem Awake.member (site : CallSite) (program : HostProgram (Option Value)) :
    m.Silent (m.member site program) := by
  cases program with
  | done r =>
    simp only [Machine.member]
    split <;> exact ⟨⟨hm.phase, hm.free⟩, rfl, rfl⟩
  | fail e => exact ⟨⟨by simp [Machine.member, Status.phase], hm.free⟩, rfl, rfl⟩
  | read k => exact hm.before _
  | write f p => exact ⟨⟨hm.phase, hm.free⟩, rfl, rfl⟩
  | call c args k => exact hm.callback _ _ _ _
  | invoke c args k =>
    simp only [Machine.member, callbackFromMember]
    split
    · exact hm.before _
    · split
      · exact hm.before _
      · split
        · exact hm.before _
        · exact hm.callback _ _ _ _

theorem Awake.unwind (e : EvalError) (t : Task) : m.Silent (m.unwind e t) := by
  cases t with
  | leaveScope => exact hm.with_interp _
  | callback returns depth servingBefore reply =>
    exact hm.endCallback depth servingBefore reply (.error e)
  | _ => exact ⟨hm, rfl, rfl⟩

end Silent

section Speaks

variable (hm : m.Awake)

include hm

theorem Awake.notify {e : Event} (he : e.Ordinary) : m.Speaks (m.notify e) := by
  have hp := pending_of_phase hm.phase
  by_cases ho : m.observed = true
  · have heq : m.notify e = { m with status := .offering (.event e false) } := by
      rw [Machine.notify, if_pos ho]
    rw [heq]
    refine ⟨by simp [hm.free, AtPause], rfl, rfl, [e], by simpa using he, ?_⟩
    rw [hp]
    rfl
  · have heq : m.notify e = m.queue e := by rw [Machine.notify, if_neg ho]
    rw [heq]
    by_cases hl : m.outbox.listening = true
    · rw [queue, if_pos hl]
      have hawake : { m with outbox := { m.outbox with queued := m.outbox.queued.push e } }.Awake :=
        ⟨hm.phase, hm.free⟩
      refine ⟨hawake.speaks.held, rfl, rfl, [e], by simpa using he, ?_⟩
      rw [pending_of_phase hawake.phase, hp]
      simp
    · rw [queue, if_neg hl]
      exact hm.speaks

/-- A pause gives one notice, where someone could resume the run. -/
theorem Awake.pause {e : Event} (he : e.Ordinary) : m.Speaks (m.pause e) := by
  have hfree := hm.free
  have hp := pending_of_phase hm.phase
  have hat := hm.not_atPause
  obtain ⟨_, _, status, serving, ⟨paused, _⟩, ⟨dispatch, listening, _⟩, _, _, _, _⟩ := m
  obtain rfl : paused = false := hfree
  have hnotice : ∀ e' ∈ [e], Event.Ordinary e' := by simpa using he
  cases serving
  · cases listening
    · exact ⟨by simpa [Machine.pause, publish, AtPause] using hat, rfl, rfl, [], by simp,
        by simp [Machine.pause, publish, pending]⟩
    · cases dispatch
      · refine ⟨?_, rfl, rfl, [e], hnotice, ?_⟩
        · simp [Machine.pause, publish, observed, queue, AtPause]
        · rw [hp]
          simp [Machine.pause, publish, observed, queue, pending]
      · refine ⟨?_, rfl, rfl, [e], hnotice, ?_⟩
        · simp [Machine.pause, publish, observed, AtPause]
        · rw [hp]
          simp [Machine.pause, publish, observed, pending]
  · exact ⟨by simpa [Machine.pause, AtPause] using hat, rfl, rfl, [], by simp,
      by simp [Machine.pause, pending]⟩

theorem Awake.marshal (call : HostCall) (keep : Bool) : m.Speaks (m.marshal call keep) := by
  unfold Machine.marshal
  dsimp only
  split
  · refine ⟨by simp [hm.free, AtPause], rfl, rfl, [], by simp, ?_⟩
    rw [pending_of_phase hm.phase]
    simp [pending]
  · exact (hm.before _).speaks hm

theorem Awake.follow (next : Next) : m.Speaks (m.follow next) := by
  cases next with
  | done => exact hm.speaks
  | walk items after => exact (hm.enter items after).speaks hm
  | pause => exact hm.pause trivial
  | write channel message => exact hm.notify trivial
  | call call keep => exact hm.marshal call keep

theorem Awake.act (word : Eval Next) : m.Speaks (m.act word) := by
  unfold Machine.act
  split
  · next next i _ => exact (hm.with_interp i).then_speaks hm ((hm.with_interp i).awake.follow next)
  · next e i _ =>
    have hraised : m.Silent { m with interp := i, status := .raising e } :=
      ⟨⟨by simp [Status.phase], hm.free⟩, rfl, rfl⟩
    exact hraised.speaks hm

theorem Awake.perform (t : Task) (ht : ∀ v, t = .element v → m.breaksIn = false) :
    m.Speaks (m.perform t) := by
  have hp := m.performs t
  generalize m.perform t = m' at hp ⊢
  cases hp with
  | @word _ word hw => exact hm.act word
  | @served _ r requests => exact (hm.served r requests t).speaks hm
  | @breaks v hb => cases hb.symm.trans (ht v rfl)
  | next => exact Silent.speaks ⟨⟨hm.phase, hm.free⟩, rfl, rfl⟩ hm
  | ended => exact Silent.speaks ⟨⟨hm.phase, hm.free⟩, rfl, rfl⟩ hm
  | left => exact (hm.with_interp _).speaks hm
  | @answer returns =>
    have hi := hm.with_interp (Interp.callbackResult returns m.interp).2
    exact (hi.trans (hi.awake.endCallback _ _ _ _)).speaks hm
  | @member site program => exact (hm.member site program).speaks hm

end Speaks

/-! ## Steps -/

/-- The machine where the debugger comes in before the element `v`, with the tasks `ts` after it. -/
def interrupted (m : Machine) (v : Value) (ts : List Task) : Machine :=
  { m with tasks := .resolve v :: ts, gate := { m.gate with stepNext := false } }

theorem step_of_breaksIn {v : Value} {ts : List Task} (hs : m.status = .proceeding)
    (ht : m.tasks = .element v :: ts) (hb : m.breaksIn = true) :
    m.step = (m.interrupted v ts).pause .stepping := by
  rw [step_of_proceeding hs ht]
  exact element_of_breaksIn (m := { m with tasks := ts }) v hb

theorem Awake.interrupted (hm : m.Awake) (v : Value) (ts : List Task) :
    (m.interrupted v ts).Awake := ⟨hm.phase, hm.free⟩

/-- A step says what its task does, unless the debugger comes in. -/
theorem Awake.step (hm : m.Awake)
    (hb : ∀ v ts, m.status = .proceeding → m.tasks = .element v :: ts → m.breaksIn = false) :
    m.Speaks m.step := by
  cases ht : m.tasks with
  | nil =>
    rw [step_of_nil ht]
    exact hm.speaks
  | cons t ts =>
    have hrest : m.Silent { m with tasks := ts } := ⟨⟨hm.phase, hm.free⟩, rfl, rfl⟩
    obtain ⟨e | _, -, hs⟩ := returned_of_phase hm.phase rfl
    · rw [step_of_raising hs ht]
      exact (hrest.trans (hrest.awake.unwind e t)).speaks hm
    · rw [step_of_proceeding hs ht]
      refine hrest.then_speaks hm (hrest.awake.perform t fun v hv => ?_)
      exact hb v ts hs (hv ▸ ht)

/-- Where the debugger comes in, its step is over, and a pause begins. -/
theorem Awake.stepping (hm : m.Awake) {v : Value} {ts : List Task} (hs : m.status = .proceeding)
    (ht : m.tasks = .element v :: ts) (hb : m.breaksIn = true) :
    { m with gate := { m.gate with stepNext := false } }.Speaks m.step := by
  have hopen : { m with gate := { m.gate with stepNext := false } }.Awake := ⟨hm.phase, hm.free⟩
  have hstop : { m with gate := { m.gate with stepNext := false } }.Silent (m.interrupted v ts) :=
    ⟨hm.interrupted v ts, rfl, rfl⟩
  rw [step_of_breaksIn hs ht hb]
  exact hstop.then_speaks hopen (hstop.awake.pause trivial)

/-! ## Runs -/

/-- The debugger holds the machine only at a pause. -/
def HeldAtPause (m : Machine) : Prop := m.gate.paused = true → m.AtPause

theorem HeldAtPause.awake (h : m.HeldAtPause) (hs : m.status.phase ≠ .waiting) : m.Awake := by
  refine ⟨hs, Bool.eq_false_iff.2 fun hp => ?_⟩
  obtain hp | ⟨e, hp⟩ := h hp <;> exact hs (by rw [hp, Status.phase])

/-- After a move the machine is held only at a pause, and all that the observer has been told since
`m`, ordinary notices, comes after what he had not received by then. -/
structure Reports (m m' : Machine) (told : List Event) : Prop where
  held : m'.HeldAtPause
  way : { m'.outbox with queued := m.outbox.queued } = m.outbox
  pending : ∃ es, (∀ e ∈ es, Event.Ordinary e) ∧ told ++ m'.pending = m.pending ++ es

theorem Speaks.reports (h : m.Speaks m') : m.Reports m' [] := ⟨h.held.1, h.way, h.pending⟩

theorem HeldAtPause.step (h : m.HeldAtPause) : m.Reports m.step [] := by
  by_cases hs : m.status.phase = .waiting
  · rw [step_of_waiting hs]
    exact ⟨h, rfl, [], by simp, by simp⟩
  have hm := h.awake hs
  by_cases hb : ∃ v ts, m.status = .proceeding ∧ m.tasks = .element v :: ts ∧ m.breaksIn = true
  · obtain ⟨v, ts, hp, ht, hb⟩ := hb
    have hreports := (hm.stepping hp ht hb).reports
    exact ⟨hreports.held, hreports.way, hreports.pending⟩
  · refine (hm.step fun v ts hp ht => ?_).reports
    exact Bool.eq_false_iff.2 fun hne => hb ⟨v, ts, hp, ht, hne⟩

theorem HeldAtPause.receive (h : m.HeldAtPause) : m.Reports m.receive.2 m.receive.1.toList := by
  have hpending := m.pending_receive
  refine ⟨?_, ?_, [], by simp, by simpa using hpending⟩
  · unfold Machine.receive take
    split
    · exact h
    · split
      · next e pauses hs =>
        intro hp
        have hpauses : pauses = true := by
          obtain hat | ⟨e', hat⟩ := h hp <;> cases hs.symm.trans hat
          rfl
        have hp : m.gate.paused = true := hp
        exact .inl (by simp [hpauses, hp])
      · next site call hs =>
        intro hp
        obtain hat | ⟨e, hat⟩ := h hp <;> cases hs.symm.trans hat
      · exact h
  · unfold Machine.receive take
    split
    · rfl
    · split <;> rfl

theorem HeldAtPause.move (h : m.HeldAtPause) {x : Move} (hx : x.Steady) :
    m.Reports (m.move x) (m.notice? x).toList := by
  cases x with
  | step => exact h.step
  | receive => exact h.receive
  | resume stepNext =>
    have hp : (m.move (.resume stepNext)).pending = m.pending := m.pending_resume stepNext
    refine ⟨?_, rfl, [], by simp, by simpa [notice?] using hp⟩
    intro hp
    cases hp
  | request r => exact hx.elim
  | dropObserver => exact hx.elim

/-- A run tells the observer nothing but ordinary notices, after those that there were. -/
theorem Run.reports {xs : List Move} (h : Run [] m xs m') (hx : ∀ x ∈ xs, x.Steady)
    (hm : m.HeldAtPause) : m.Reports m' (m.heard xs) := by
  induction h with
  | refl => exact ⟨hm, rfl, [], by simp, by simp [heard]⟩
  | @snoc m₁ xs x hrun _ ih =>
    obtain ⟨held, way, es, hes, hpending⟩ := ih fun y hy => hx y (by simp [hy])
    obtain ⟨held', way', es', hes', hpending'⟩ := held.move (hx x (by simp))
    refine ⟨held', ?_, es ++ es', ?_, ?_⟩
    · rw [← way, ← way']
    · exact fun e he => (List.mem_append.1 he).elim (hes e) (hes' e)
    · rw [hrun.heard_snoc, List.append_assoc, hpending', ← List.append_assoc, hpending,
        List.append_assoc]

end Machine

end WordStack
