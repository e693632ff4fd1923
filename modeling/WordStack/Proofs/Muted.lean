import WordStack.Proofs.Inheritance
import WordStack.Proofs.Transparency

/-!
# Machines that nobody looks into

Host calls run on the spot, or at the observer's. The two modes differ in how a call begins, in
whether a callback is served for someone else, and in which notices wait where. `muted` forgets all
of that: it is the machine as if nobody could look in. Whatever the mode and whatever the observer
does, a muted machine goes on by steps of its own alone (`muted_move`). It needs that members run
callbacks only as a part of their host calls: where they run one from outside, the mode decides
whether that is refused.
-/

namespace WordStack

def Event.isPause : Event → Bool
  | .breaking | .stepping => true
  | _ => false

/-- The notices but for those about pauses. -/
def apartFromPauses (es : List Event) : List Event := es.filter (!·.isPause)

theorem apartFromPauses_append (es fs : List Event) :
    apartFromPauses (es ++ fs) = apartFromPauses es ++ apartFromPauses fs :=
  List.filter_append ..

def Reply.CallsOnly : Reply → Prop
  | .toMember _ k => ∀ r, (k r).CallsOnly
  | .toCaller _ => True

/-- A task that runs the program of a member, now or once a callback is over, is one of a program
that runs callbacks only as a part of its host call. -/
def Task.CallsOnly : Task → Prop
  | .member _ program => program.CallsOnly
  | .callback _ _ _ reply => reply.CallsOnly
  | _ => True

theorem Task.satisfies_callsOnly (t : Task) :
    t.Satisfies HostProgram.CallsOnly (fun _ => True) ↔ t.CallsOnly := by
  cases t with
  | callback returns depth servingBefore reply =>
    cases reply with
    | toMember site k =>
      refine ⟨fun ⟨p, hp, hk⟩ r => HostProgram.callsOnly_hereditary.awaits hp hk r, fun h => ?_⟩
      exact ⟨.call default #[] k, h, rfl⟩
    | toCaller ticket => exact Iff.rfl
  | _ => exact Iff.rfl

/-! ## Muted machines -/

def CallSite.muted (site : CallSite) : CallSite := { site with remote := false }

def Reply.muted : Reply → Reply
  | .toMember site k => .toMember site.muted k
  | .toCaller ticket => .toCaller ticket

/-- A task without what the mode and the debugger have made of it. -/
def Task.muted : Task → Task
  | .resolve v => .element v
  | .callback returns depth _ reply => .callback returns depth true reply.muted
  | .member site program => .member site.muted program
  | t => t

theorem Task.FollowsUp.muted_eq {t : Task} (h : t.FollowsUp) : t.muted = t := by
  cases t <;> first | rfl | exact h.elim

theorem map_muted_of_followsUp {after : List Task} (h : ∀ t ∈ after, t.FollowsUp) :
    after.map Task.muted = after := by
  rw [List.map_congr_left fun t ht => (h t ht).muted_eq, List.map_id']

namespace Machine

/-- The machine as if a callback was served all the while, on the spot: it waits for nobody, and
queues what it gives notice of after the notices `told`. -/
def muted (told : List Event) (m : Machine) : Machine :=
  { m.answered with
    tasks := m.answered.tasks.map Task.muted
    serving := true
    gate := {}
    outbox := ⟨.inline, true, (apartFromPauses (told ++ m.pending)).toArray⟩
    published := .empty ⟨0⟩ }

/-- The observer listens, nobody else asks for callbacks, and members run callbacks only as a part
of their host calls. -/
structure Attended (m : Machine) : Prop where
  requests : m.requests = []
  listening : m.outbox.listening = true
  registry : m.interp.setting.registry.CallsOnly
  tasks : ∀ t ∈ m.tasks, t.CallsOnly

section Muted

variable {told : List Event} {m : Machine}

/-! ## A muted machine goes the same way -/

theorem muted_interp (told : List Event) (m : Machine) : (m.muted told).interp = m.interp := by
  obtain ⟨_, _, status, _, _, _, _, _, _, _⟩ := m
  rcases status with _ | _ | _ | (_ | _) <;> rfl

theorem muted_with_interp (told : List Event) (m : Machine) (i : Interp)
    (hs : m.status = .proceeding) :
    { m with interp := i }.muted told = { m.muted told with interp := i } := by
  obtain ⟨_, _, status, _, _, _, _, _, _, _⟩ := m
  obtain rfl : status = .proceeding := hs
  rfl

theorem muted_enter (hs : m.status = .proceeding) (items : ListId) (after : List Task) :
    (m.enter items after).muted told = (m.muted told).enter items (after.map Task.muted) := by
  obtain ⟨i, _, status, _, _, _, _, _, _, _⟩ := m
  obtain rfl : status = .proceeding := hs
  rcases hpush : i.calls.push items (i.putWords.depth - 1) with ⟨r, calls⟩
  cases r <;> simp [muted, answered, enter, hpush, pending, Task.muted]

theorem muted_deliver (hs : m.status = .proceeding) (r : Except EvalError (Option Value))
    (reply : Reply) : (m.deliver r reply).muted told = (m.muted told).deliver r reply.muted := by
  obtain ⟨_, _, status, _, _, _, _, _, _, _⟩ := m
  obtain rfl : status = .proceeding := hs
  cases reply <;> rfl

theorem muted_callback (hs : m.status = .proceeding) (c : Callback) (args : Array Value)
    (reply : Reply) (serving : Bool) : (m.callback c args reply serving).muted told =
      (m.muted told).callback c args reply.muted true := by
  unfold callback
  split
  · refine (muted_enter ?_ _ _).trans ?_
    · exact hs
    · obtain ⟨_, _, status, _, _, _, _, _, _, _⟩ := m
      obtain rfl : status = .proceeding := hs
      rfl
  · exact muted_deliver hs _ _

theorem muted_endCallback (hs : m.status.phase ≠ .waiting) (depth : Nat) (servingBefore : Bool)
    (reply : Reply) (r : Except EvalError (Option Value)) :
    (m.endCallback depth servingBefore reply r).muted told =
      (m.muted told).endCallback depth true reply.muted r := by
  unfold endCallback
  rw [muted_deliver rfl]
  obtain ⟨_, _, status, _, _, _, _, _, _, _⟩ := m
  rcases status with _ | e | _ | (_ | _)
  · rfl
  · rfl
  · exact absurd rfl hs
  · exact absurd rfl hs
  · exact absurd rfl hs

theorem muted_notify (hs : m.status = .proceeding) (hl : m.outbox.listening = true) {e : Event}
    (he : e.isPause = false) : (m.notify e).muted told = (m.muted told).notify e := by
  obtain ⟨_, _, status, serving, _, ⟨dispatch, listening, queued⟩, _, _, _, _⟩ := m
  obtain rfl : status = .proceeding := hs
  obtain rfl : listening = true := hl
  cases serving <;> cases dispatch <;>
    simp [notify, observed, queue, muted, answered, pending, apartFromPauses, he]

/-- A pause, once it is over, has changed nothing. -/
theorem muted_pause (hs : m.status = .proceeding) (hl : m.outbox.listening = true) {e : Event}
    (he : e.isPause = true) : (m.pause e).muted told = m.muted told := by
  obtain ⟨_, _, status, serving, _, ⟨dispatch, listening, queued⟩, _, _, _, _⟩ := m
  obtain rfl : status = .proceeding := hs
  obtain rfl : listening = true := hl
  cases serving <;> cases dispatch <;>
    simp [pause, publish, observed, queue, muted, answered, pending, apartFromPauses, he]

theorem muted_marshal (hs : m.status = .proceeding) (call : HostCall) (keep : Bool) :
    (m.marshal call keep).muted told = (m.muted told).marshal call keep := by
  obtain ⟨_, _, status, serving, _, ⟨dispatch, listening, queued⟩, _, _, _, _⟩ := m
  obtain rfl : status = .proceeding := hs
  cases serving <;> cases dispatch <;> cases listening <;>
    simp [marshal, observed, before, muted, answered, pending, Task.muted, CallSite.muted]

theorem muted_follow (hs : m.status = .proceeding) (hl : m.outbox.listening = true) {next : Next}
    (hn : ∀ items after, next = .walk items after → after.map Task.muted = after) :
    (m.follow next).muted told = (m.muted told).follow next := by
  cases next with
  | done => rfl
  | walk items after =>
    rw [follow, muted_enter hs, hn items after rfl]
    rfl
  | pause => exact muted_pause hs hl rfl
  | write channel message => exact muted_notify hs hl rfl
  | call call keep => exact muted_marshal hs call keep

theorem muted_act (hs : m.status = .proceeding) (hl : m.outbox.listening = true)
    {word : Eval Next} (hw : ∀ items after, (word m.interp).1 = .ok (.walk items after) →
      after.map Task.muted = after) : (m.act word).muted told = (m.muted told).act word := by
  unfold act
  rw [muted_interp]
  split
  · next next i hi =>
    refine (muted_follow (m := { m with interp := i }) hs hl fun items after h => ?_).trans ?_
    · exact hw items after (by rw [hi, h])
    · rw [muted_with_interp told m i hs]
  · next e i hi =>
    obtain ⟨_, _, status, _, _, _, _, _, _, _⟩ := m
    obtain rfl : status = .proceeding := hs
    rfl

/-- A word that leaves only tasks which the mode says nothing about. -/
theorem muted_act_orderly (h : m.Attended) (hs : m.status = .proceeding) {word : Eval Next}
    (hw : ByEdits word Next.Orderly) : (m.act word).muted told = (m.muted told).act word := by
  refine muted_act hs h.listening fun items after ha => map_muted_of_followsUp ?_
  exact (hw m.interp).2 _ ha

theorem muted_word (h : m.Attended) (hs : m.status = .proceeding) {t : Task} {word : Eval Next}
    (hw : m.word? t = some word) : (m.act word).muted told = (m.muted told).act word := by
  refine muted_act hs h.listening fun items after ha => ?_
  have hafter (u : Task) (hu : u ∈ after) : u.muted = u := by
    obtain hu | rfl := word_after hw ha u hu
    · exact hu.muted_eq
    · rfl
  rw [List.map_congr_left hafter, List.map_id']

theorem muted_requests (told : List Event) (m : Machine) :
    (m.muted told).requests = m.requests := by
  obtain ⟨_, _, status, _, _, _, _, _, _, _⟩ := m
  rcases status with _ | _ | _ | (_ | _) <;> rfl

/-- In a muted machine the same words act, and nothing comes before an element. -/
theorem word?_muted (h : m.Attended) {t : Task} {word : Eval Next} (hw : m.word? t = some word) :
    (m.muted told).word? t.muted = some word := by
  have hrequests : (m.muted told).requests = [] := (muted_requests told m).trans h.requests
  have hbreaks : (m.muted told).breaksIn = false := by simp [breaksIn, muted]
  have hmuted (v : Value) : (m.muted told).word? (.element v) = some (Interp.resolve v) := by
    simp [word?, hrequests, hbreaks]
  cases t with
  | element v =>
    rw [(element_of_word hw).1]
    exact hmuted v
  | resolve v => exact (hmuted v).trans hw
  | walk | leaveScope | callback | member => cases hw
  | _ => exact hw

theorem muted_member (hs : m.status = .proceeding) (site : CallSite)
    {program : HostProgram (Option Value)} (hp : program.CallsOnly) :
    (m.member site program).muted told = (m.muted told).member site.muted program := by
  cases program with
  | call c args k =>
    refine (muted_callback hs c args (.toMember site k) (m.serving || site.remote)).trans ?_
    obtain ⟨_, _, status, _, _, _, _, _, _, _⟩ := m
    obtain rfl : status = .proceeding := hs
    rfl
  | invoke c args k => exact hp.elim
  | done r =>
    obtain ⟨signature, keep, remote⟩ := site
    obtain ⟨_, _, status, _, _, _, _, _, _, _⟩ := m
    obtain rfl : status = .proceeding := hs
    cases keep <;> cases r <;> rfl
  | _ =>
    obtain ⟨_, _, status, _, _, _, _, _, _, _⟩ := m
    obtain rfl : status = .proceeding := hs
    rfl

theorem perform_member (hr : m.requests = []) {site : CallSite}
    {program : HostProgram (Option Value)} :
    m.perform (.member site program) = m.member site program := by
  simp only [perform]
  split
  · next h => cases hr.symm.trans h
  · rfl

theorem muted_perform (h : m.Attended) (hs : m.status = .proceeding) {t : Task}
    (ht : t.CallsOnly) (hb : ∀ v, t = .element v → m.breaksIn = false) :
    (m.perform t).muted told = (m.muted told).perform t.muted := by
  cases hword : m.word? t with
  | some word =>
    rw [perform_of_word hword, perform_of_word (word?_muted h hword), muted_word h hs hword]
  | none =>
    cases t with
    | walk items position =>
      simp only [perform, Task.muted, muted_interp]
      obtain ⟨_, _, status, _, _, _, _, _, _, _⟩ := m
      obtain rfl : status = .proceeding := hs
      dsimp only
      split <;> rfl
    | element v => simp [word?, h.requests, hb v rfl] at hword
    | leaveScope =>
      obtain ⟨_, _, status, _, _, _, _, _, _, _⟩ := m
      obtain rfl : status = .proceeding := hs
      rfl
    | callback returns depth servingBefore reply =>
      let out := Interp.callbackResult returns m.interp
      have hc : (m.muted told).perform (.callback returns depth true reply.muted) =
          { m.muted told with interp := out.2 }.endCallback depth true reply.muted out.1 := by
        simp only [perform, muted_interp]
        rfl
      refine (muted_endCallback (m := { m with interp := out.2 }) ?_ _ _ _ _).trans ?_
      · simp [hs, Status.phase]
      · rw [muted_with_interp told m out.2 hs]
        exact hc.symm
    | member site program =>
      rw [perform_member h.requests, muted_member hs site ht]
      exact (perform_member ((muted_requests told m).trans h.requests)).symm
    | _ => cases hword

theorem muted_unwind {e : EvalError} (hs : m.status = .raising e) (t : Task) :
    (m.unwind e t).muted told = (m.muted told).unwind e t.muted := by
  have hp : m.status.phase ≠ .waiting := by simp [hs, Status.phase]
  cases t with
  | callback returns depth servingBefore reply => exact muted_endCallback hp _ _ _ _
  | leaveScope =>
    obtain ⟨_, _, status, _, _, _, _, _, _, _⟩ := m
    obtain rfl : status = .raising e := hs
    rfl
  | _ => rfl

theorem muted_tasks (told : List Event) (hs : m.status.phase ≠ .waiting) :
    (m.muted told).tasks = m.tasks.map Task.muted := by
  obtain ⟨_, hr⟩ := returned_of_phase hs rfl
  rw [muted, Returned.answered_eq hr]

theorem muted_status (told : List Event) (hs : m.status.phase ≠ .waiting) :
    (m.muted told).status = m.status := by
  obtain ⟨_, hr⟩ := returned_of_phase hs rfl
  rw [muted, Returned.answered_eq hr]

theorem muted_with_tasks (told : List Event) (hs : m.status.phase ≠ .waiting) (ts : List Task) :
    { m with tasks := ts }.muted told = { m.muted told with tasks := ts.map Task.muted } := by
  obtain ⟨_, _, status, _, _, _, _, _, _, _⟩ := m
  rcases status with _ | e | _ | (_ | _)
  · rfl
  · rfl
  · exact absurd rfl hs
  · exact absurd rfl hs
  · exact absurd rfl hs

theorem Attended.tail {t : Task} {ts : List Task} (h : m.Attended) (ht : m.tasks = t :: ts) :
    Attended { m with tasks := ts } :=
  { h with tasks := fun u hu => h.tasks u (by rw [ht]; exact List.mem_cons_of_mem t hu) }

/-- A step that the debugger has no part in is a step of the muted machine. -/
theorem muted_step (told : List Event) (h : m.Attended) (hs : m.status.phase ≠ .waiting)
    (hb : ∀ v ts, m.status = .proceeding → m.tasks = .element v :: ts → m.breaksIn = false) :
    m.step.muted told = (m.muted told).step := by
  have htasks := muted_tasks told hs
  have hstatus := muted_status told hs
  cases ht : m.tasks with
  | nil =>
    rw [ht] at htasks
    rw [step_of_nil ht, step_of_nil htasks]
  | cons t ts =>
    rw [ht, List.map_cons] at htasks
    have htail := muted_with_tasks told hs ts
    obtain ⟨e | _, hr⟩ := returned_of_phase hs rfl
    · have he : m.status = .raising e := hr.2
      rw [step_of_raising he ht, step_of_raising (hstatus.trans he) htasks, ← htail]
      exact muted_unwind (m := { m with tasks := ts }) he t
    · have hp : m.status = .proceeding := hr.2
      rw [step_of_proceeding hp ht, step_of_proceeding (hstatus.trans hp) htasks, ← htail]
      refine muted_perform (h.tail ht) hp (h.tasks t (by simp [ht])) fun v hv => ?_
      exact hb v ts hp (by rw [ht, hv])

/-! ## What a muted machine does not notice -/

theorem muted_receive (told : List Event) (m : Machine) :
    m.receive.2.muted (told ++ m.receive.1.toList) = m.muted told := by
  obtain ⟨_, _, status, _, ⟨paused, _⟩, ⟨_, _, ⟨queued⟩⟩, _, _, _, _⟩ := m
  cases queued with
  | nil =>
    rcases status with _ | _ | _ | (⟨_, pauses⟩ | _)
    · simp [receive, take, muted, answered, pending]
    · simp [receive, take, muted, answered, pending]
    · simp [receive, take, muted, answered, pending]
    · cases pauses <;> cases paused <;> simp [receive, take, muted, answered, pending]
    · simp [receive, take, muted, answered, pending, before, Task.muted, CallSite.muted]
  | cons e queued =>
    rcases status with _ | _ | _ | (_ | _) <;>
      simp [receive, muted, answered, pending, before, Array.eraseIdxIfInBounds]

theorem muted_resume (told : List Event) (m : Machine) (stepNext : Bool) :
    (m.resume stepNext).2.muted told = m.muted told := by
  obtain ⟨_, _, status, _, _, _, _, _, _, _⟩ := m
  rcases status with _ | _ | _ | (_ | _) <;> rfl

/-- The debugger comes in before an element, which is still to be processed. -/
theorem muted_stepping {v : Value} {ts : List Task} (hl : m.outbox.listening = true)
    (hs : m.status = .proceeding) (ht : m.tasks = .element v :: ts) (hb : m.breaksIn = true) :
    m.step.muted told = m.muted told := by
  obtain ⟨_, tasks, status, serving, ⟨paused, stepNext⟩, ⟨dispatch, listening, queued⟩, requests,
    _, _, _⟩ := m
  obtain rfl : status = .proceeding := hs
  obtain rfl : tasks = .element v :: ts := ht
  obtain rfl : listening = true := hl
  obtain ⟨rfl, rfl, rfl⟩ := breaksIn_iff.1 hb
  cases dispatch <;>
    simp [step, perform, element, before, pause, publish, observed, queue, muted, answered,
      pending, apartFromPauses, Event.isPause, Task.muted]

end Muted

/-! ## What stays while an observer attends -/

section Attended

variable {m : Machine}

/-- What an attended machine leaves to be done is attended too. -/
theorem Attended.of_leaves {m' : Machine} (h : m.Attended)
    (hl : m.Leaves HostProgram.CallsOnly (fun _ => True) m') (hp : m.interp.Persists m'.interp) :
    m'.Attended := by
  obtain ⟨ts, ht, hts⟩ := hl.tasks
  refine ⟨List.suffix_nil.1 (h.requests ▸ hl.requests), hl.listening.trans h.listening, ?_, ?_⟩
  · rw [hp.setting]
    exact h.registry
  · rw [ht]
    exact fun t hmem => (List.mem_append.1 hmem).elim
      (fun hmem => t.satisfies_callsOnly.1 (hts t hmem)) (h.tasks t)

theorem Attended.act_orderly (h : m.Attended) {word : Eval Next}
    (hw : ByEdits word Next.Orderly) : (m.act word).Attended :=
  h.of_leaves (act_leaves_of_edits HostProgram.callsOnly_hereditary h.registry hw)
    (m.act_persists (hw m.interp).1.persists)

theorem Attended.step (h : m.Attended) : m.step.Attended := by
  by_cases hs : m.status.phase = .waiting
  · rwa [step_of_waiting hs]
  cases ht : m.tasks with
  | nil => rwa [step_of_nil ht]
  | cons t ts =>
    have hleft := step_leaves HostProgram.callsOnly_hereditary h.registry (fun _ _ => trivial) ht hs
      (t.satisfies_callsOnly.2 (h.tasks t (by simp [ht])))
    exact (h.tail ht).of_leaves hleft (m.move_persists .step)

theorem Attended.begins (h : m.Attended) (site : CallSite) (call : HostCall) (status : Status) :
    ({ m with status }.before
      (.member site (m.interp.setting.registry.invoke call))).Attended := by
  refine ⟨h.requests, h.listening, h.registry, List.forall_mem_cons.2 ⟨?_, h.tasks⟩⟩
  exact h.registry.invoke call

theorem Attended.move (h : m.Attended) {x : Move} (hx : x.Steady) : (m.move x).Attended := by
  cases x with
  | step => exact h.step
  | request r => exact hx.elim
  | dropObserver => exact hx.elim
  | resume stepNext => exact ⟨h.requests, h.listening, h.registry, h.tasks⟩
  | receive =>
    simp only [Machine.move, receive, take]
    split
    · exact ⟨h.requests, h.listening, h.registry, h.tasks⟩
    · split
      · exact ⟨h.requests, h.listening, h.registry, h.tasks⟩
      · exact h.begins _ _ _
      · exact h

end Attended

/-! ## Moves -/

/-- What a steady move does to the muted machine: nothing, or a step. -/
theorem muted_move {m : Machine} (h : m.Attended) (told : List Event) {x : Move} (hx : x.Steady) :
    (m.move x).muted (told ++ (m.notice? x).toList) = m.muted told ∨
      (m.move x).muted (told ++ (m.notice? x).toList) = (m.muted told).step := by
  cases x with
  | request r => exact hx.elim
  | dropObserver => exact hx.elim
  | receive => exact .inl (muted_receive told m)
  | resume stepNext =>
    have hn : told ++ (m.notice? (.resume stepNext)).toList = told := List.append_nil told
    rw [hn]
    exact .inl (muted_resume told m stepNext)
  | step =>
    have hn : told ++ (m.notice? .step).toList = told := List.append_nil told
    rw [hn, move]
    by_cases hs : m.status.phase = .waiting
    · exact .inl (by rw [step_of_waiting hs])
    by_cases hb : ∃ v ts, m.status = .proceeding ∧ m.tasks = .element v :: ts ∧ m.breaksIn = true
    · obtain ⟨v, ts, hp, ht, hb⟩ := hb
      exact .inl (muted_stepping h.listening hp ht hb)
    · refine .inr (muted_step told h hs fun v ts hp ht => ?_)
      exact Bool.eq_false_iff.2 fun hne => hb ⟨v, ts, hp, ht, hne⟩

end Machine

end WordStack
