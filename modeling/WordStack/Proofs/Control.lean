import WordStack.Proofs.Persistence

/-!
# What a move does to the control of a run

The control of a machine is what its walks, procedures and callbacks have to put right again: the
frames, the put-scopes and whether a callback is served, with the tasks that will do so. `Change`
says all that one move can do to it. A move does not look at the tasks below those that it works
on, so the tasks are those above a base: `move_change`.
-/

namespace WordStack

/-- A task that holds no frame, no scope and no callback. -/
def Task.Plain : Task → Prop
  | .walk _ _ | .leaveScope | .callback _ _ _ _ => False
  | _ => True

theorem Task.FollowsUp.plain {t : Task} (h : t.FollowsUp) : t.Plain := by
  cases t <;> trivial

/-- Whether a machine goes on, waits for the outside, or unwinds because of an error. -/
inductive Phase where
  | proceeding
  | waiting
  | raising (e : EvalError)

def Status.phase : Status → Phase
  | .proceeding => .proceeding
  | .raising e => .raising e
  | .paused | .offering _ => .waiting

/-- The control of a run. -/
structure Control where
  tasks : List Task
  calls : CallStack
  putWords : Scopes
  serving : Bool
  phase : Phase

namespace Control

/-- What is set up before a list is walked, and the tasks that follow the walk. -/
inductive Prepares : Control → List Task → Control → Prop where
  /-- A word has put names in the innermost scope. -/
  | word {k : Control} {after : List Task} {putWords : Scopes} :
      putWords.outer = k.putWords.outer → (∀ t ∈ after, t.Plain) →
      Prepares k after { k with putWords }
  | procedure {k : Control} :
      Prepares k [.leaveScope] { k with putWords := k.putWords.enter }
  | callback {k : Control} {returns : Option HostType} {reply : Reply} {serving : Bool}
      {more : List Task} : (∀ t ∈ more, t.Plain) →
      Prepares k (.callback returns k.calls.depth k.serving reply :: more) { k with serving }

theorem Prepares.calls_eq {k k' : Control} {after : List Task} (h : k.Prepares after k') :
    k'.calls = k.calls := by
  cases h <;> rfl

/-- What becomes of the control when a plain task has been performed. -/
inductive Aftermath : Control → Control → Prop where
  | plain {k : Control} {more : List Task} {putWords : Scopes} {phase : Phase} :
      putWords.outer = k.putWords.outer → (∀ t ∈ more, t.Plain) →
      Aftermath k { k with tasks := more ++ k.tasks, putWords, phase }
  | enter {k k₁ : Control} {after : List Task} {items : ListId} {calls : CallStack} :
      Prepares k after k₁ →
      k₁.calls.push items (k₁.putWords.depth - 1) = (.ok (), calls) →
      Aftermath k { k₁ with tasks := .walk items 0 :: (after ++ k.tasks), calls }
  | refuse {k k₁ : Control} {after : List Task} {limit : Nat} :
      Prepares k after k₁ → k₁.calls.reachedLimit? = some limit →
      Aftermath k
        { k₁ with tasks := after ++ k.tasks, phase := .raising (.recursionLimit limit) }

/-- All that a move can do to the control of a run. -/
inductive Change : Control → Control → Prop where
  | idle (k : Control) : Change k k
  /-- What the machine waited for has come. -/
  | woken {k : Control} : k.phase = .waiting → Change k { k with phase := .proceeding }
  | begun {k : Control} {t : Task} : k.phase = .waiting → t.Plain →
      Change k { k with tasks := t :: k.tasks, phase := .proceeding }
  | task {k k' : Control} {t : Task} : t.Plain → k.phase = .proceeding → Aftermath k k' →
      Change { k with tasks := t :: k.tasks } k'
  | next {k : Control} {items : ListId} {position : Nat} (v : Value) : k.phase = .proceeding →
      Change { k with tasks := .walk items position :: k.tasks }
        { k with
          tasks := .element v :: .walk items (position + 1) :: k.tasks,
          calls := k.calls.setCursor v }
  | ended {k : Control} {items : ListId} {position : Nat} : k.phase = .proceeding →
      Change { k with tasks := .walk items position :: k.tasks } { k with calls := k.calls.pop }
  | leave {k : Control} : k.phase ≠ .waiting →
      Change { k with tasks := .leaveScope :: k.tasks } { k with putWords := k.putWords.leave }
  | answer {k : Control} {returns : Option HostType} {depth : Nat} {servingBefore : Bool}
      {reply : Reply} {more : List Task} {putWords : Scopes} : k.phase = .proceeding →
      putWords.outer = k.putWords.outer → (∀ t ∈ more, t.Plain) →
      Change { k with tasks := .callback returns depth servingBefore reply :: k.tasks }
        { k with tasks := more ++ k.tasks, putWords, serving := servingBefore }
  | caught {k : Control} {returns : Option HostType} {depth : Nat} {servingBefore : Bool}
      {reply : Reply} {more : List Task} {putWords : Scopes} : k.phase ≠ .waiting →
      putWords.outer = k.putWords.outer → (∀ t ∈ more, t.Plain) →
      Change { k with tasks := .callback returns depth servingBefore reply :: k.tasks }
        { k with
          tasks := more ++ k.tasks, calls := k.calls.truncate depth, putWords,
          serving := servingBefore, phase := .proceeding }
  | unwind {k : Control} {t : Task} {e : EvalError} : k.phase = .raising e →
      t ≠ .leaveScope → (∀ returns depth serving reply, t ≠ .callback returns depth serving reply) →
      Change { k with tasks := t :: k.tasks } k

end Control

/-! ## What edits keep -/

theorem Edits.calls_eq {i i' : Interp} (h : Edits i i') : i'.calls = i.calls :=
  h.keeps (R := fun i i' => i'.calls = i.calls) (fun _ => rfl) (fun h1 h2 => h2.trans h1)
    fun he => by cases he <;> rfl

theorem Edits.outer_eq {i i' : Interp} (h : Edits i i') :
    i'.putWords.outer = i.putWords.outer :=
  h.keeps (R := fun i i' => i'.putWords.outer = i.putWords.outer) (fun _ => rfl)
    (fun h1 h2 => h2.trans h1) fun he => by cases he <;> rfl

namespace Machine

/-- The control of a machine, of whose tasks `tasks` are above a base. -/
def control (m : Machine) (tasks : List Task) : Control where
  tasks
  calls := m.interp.calls
  putWords := m.interp.putWords
  serving := m.serving
  phase := m.status.phase

@[simp] theorem control_tasks (m : Machine) (tasks : List Task) :
    (m.control tasks).tasks = tasks := rfl

theorem status_of_proceeding {m : Machine} (h : m.status.phase = .proceeding) :
    m.status = .proceeding := by
  rcases he : m.status with _ | e | _ | _ <;> simp [he, Status.phase] at h
  rfl

theorem status_of_raising {m : Machine} {e : EvalError} (h : m.status.phase = .raising e) :
    m.status = .raising e := by
  rcases he : m.status with _ | e' | _ | _ <;> simp [he, Status.phase] at h
  rw [h]

theorem step_of_waiting {m : Machine} (hs : m.status.phase = .waiting) : m.step = m := by
  unfold step
  split
  · next h _ => simp [h, Status.phase] at hs
  · next h _ => simp [h, Status.phase] at hs
  · rfl

theorem returned_of_phase {m : Machine} {base : List Task} (hs : m.status.phase ≠ .waiting)
    (ht : m.tasks = base) : ∃ r, m.Returned base r := by
  rcases he : m.status with _ | e | _ | _
  · exact ⟨.ok (), ht, he⟩
  · exact ⟨.error e, ht, he⟩
  · exact absurd (by rw [he, Status.phase]) hs
  · exact absurd (by rw [he, Status.phase]) hs

theorem Returned.phase {m : Machine} {base : List Task} {r : Except EvalError Unit}
    (h : m.Returned base r) : m.status.phase ≠ .waiting := by
  rw [h.2]
  cases r <;> simp [Status.ofResult, Status.phase]

/-- The machine has come from the control `k` by performing a plain task. -/
def Follows (base : List Task) (k : Control) (m : Machine) : Prop :=
  ∃ tasks, m.tasks = tasks ++ base ∧ k.Aftermath (m.control tasks)

variable {base : List Task} {k : Control} {m : Machine}

/-! ## Notices and pauses -/

theorem pause_control (m : Machine) (e : Event) :
    (m.pause e).tasks = m.tasks ∧ (m.pause e).serving = m.serving := by
  obtain ⟨_, _, _, serving, _, ⟨dispatch, listening, _⟩, _, _, _, _⟩ := m
  cases serving <;> cases listening <;> cases dispatch <;> exact ⟨rfl, rfl⟩

theorem notify_control (m : Machine) (e : Event) :
    (m.notify e).tasks = m.tasks ∧ (m.notify e).serving = m.serving := by
  obtain ⟨_, _, _, serving, _, ⟨dispatch, listening, _⟩, _, _, _, _⟩ := m
  cases serving <;> cases listening <;> cases dispatch <;> exact ⟨rfl, rfl⟩

/-! ## Performing a plain task -/

/-- The machine has the control of `k`, but for names put in the innermost scope. -/
structure Holds (k : Control) (m : Machine) : Prop where
  calls : m.interp.calls = k.calls
  outer : m.interp.putWords.outer = k.putWords.outer
  serving : m.serving = k.serving

theorem follows_plain (more : List Task) (h : Holds k m) (hm : ∀ t ∈ more, t.Plain)
    (ht : m.tasks = more ++ k.tasks ++ base) : Follows base k m := by
  refine ⟨more ++ k.tasks, ht, ?_⟩
  rw [control, h.calls, h.serving]
  exact .plain h.outer hm

theorem follows_here (h : Holds k m) (ht : m.tasks = k.tasks ++ base) : Follows base k m :=
  follows_plain [] h (by simp) ht

theorem follows_before {t : Task} (h : Holds k m) (hp : t.Plain) (ht : m.tasks = k.tasks ++ base) :
    Follows base k (m.before t) :=
  follows_plain [t] ⟨h.calls, h.outer, h.serving⟩ (by simpa using hp) (by simp [before, ht])

theorem follows_enter {after : List Task} (more : List Task) (items : ListId)
    (hp : k.Prepares (after ++ more) (m.control k.tasks))
    (ht : m.tasks = more ++ k.tasks ++ base) : Follows base k (m.enter items after) := by
  unfold enter
  cases hl : m.interp.calls.reachedLimit? with
  | none =>
    have hpush : m.interp.calls.push items (m.interp.putWords.depth - 1) =
        (.ok (), { m.interp.calls with
          frames := m.interp.calls.frames.push ⟨items, none, m.interp.putWords.depth - 1⟩ }) := by
      simp [CallStack.push, hl]
    rw [hpush]
    exact ⟨.walk items 0 :: (after ++ more ++ k.tasks), by simp [ht], .enter hp hpush⟩
  | some limit =>
    have hpush : m.interp.calls.push items (m.interp.putWords.depth - 1) =
        (.error (.recursionLimit limit), m.interp.calls) := by
      simp [CallStack.push, hl]
    rw [hpush]
    exact ⟨after ++ more ++ k.tasks, by simp [ht], .refuse hp hl⟩

theorem prepares_word {after : List Task} (h : Holds k m) (hs : m.status.phase = k.phase)
    (ha : ∀ t ∈ after, t.Plain) : k.Prepares after (m.control k.tasks) := by
  have hk : m.control k.tasks = { k with putWords := m.interp.putWords } := by
    simp [control, h.calls, h.serving, hs]
  rw [hk]
  exact .word h.outer ha

theorem follows_next {next : Next} (hn : next.Orderly) (h : Holds k m)
    (hs : m.status.phase = k.phase) (ht : m.tasks = k.tasks ++ base) :
    Follows base k (m.follow next) := by
  cases next with
  | done => exact follows_here h ht
  | walk items after =>
    refine follows_enter [] items (prepares_word h hs fun t ht => ?_) ht
    exact (hn t (by simpa using ht)).plain
  | pause =>
    obtain ⟨h1, h2⟩ := m.pause_control .breaking
    exact follows_here ⟨by rw [follow, pause_interp, h.calls],
      by rw [follow, pause_interp, h.outer], h2.trans h.serving⟩ (h1.trans ht)
  | write channel message =>
    obtain ⟨h1, h2⟩ := m.notify_control (.output channel message)
    exact follows_here ⟨by rw [follow, notify_interp, h.calls],
      by rw [follow, notify_interp, h.outer], h2.trans h.serving⟩ (h1.trans ht)
  | call call keep =>
    unfold follow marshal
    dsimp only
    split
    · exact follows_here ⟨h.calls, h.outer, h.serving⟩ ht
    · exact follows_before h trivial ht

/-- A word that makes edits only, performed with the tasks `ts` above the base. -/
theorem follows_act {word : Eval Next} {ts : List Task}
    (h : Edits m.interp (word m.interp).2 ∧
      ∀ next, (word m.interp).1 = .ok next → next.Orderly)
    (ht : m.tasks = ts ++ base) : Follows base (m.control ts) (m.act word) := by
  obtain ⟨he, ho⟩ := h
  unfold act
  split
  · next next i hw =>
    rw [hw] at he ho
    exact follows_next (ho next rfl) ⟨he.calls_eq, he.outer_eq, rfl⟩ rfl ht
  · next e i hw =>
    rw [hw] at he
    exact follows_here ⟨he.calls_eq, he.outer_eq, rfl⟩ ht

theorem follows_resolve {ts : List Task} (v : Value) (ht : m.tasks = ts ++ base) :
    Follows base (m.control ts) (m.act (Interp.resolve v)) := by
  obtain ⟨name, body, rfl, -, -, hr⟩ | h := Interp.resolve_cases v m.interp
  · unfold act
    rw [hr]
    exact follows_enter [] body .procedure ht
  · exact follows_act h ht

theorem follows_word {ts : List Task} {t : Task} {word : Eval Next} (h : m.word? t = some word)
    (ht : m.tasks = ts ++ base) : Follows base (m.control ts) (m.act word) :=
  word_cases (Q := fun word => Follows base (m.control ts) (m.act word)) h
    (fun v => follows_resolve v ht) fun _ hw => follows_act (hw m.interp) ht

theorem follows_callback {ts : List Task} (more : List Task) (c : Callback) (args : Array Value)
    (reply : Reply) (serving : Bool) (hm : ∀ t ∈ more, t.Plain)
    (ht : m.tasks = more ++ ts ++ base) :
    Follows base (m.control ts) (m.callback c args reply serving) := by
  unfold callback
  split
  · exact follows_enter more c.body (.callback hm) ht
  · cases reply with
    | toMember site program =>
      let refused := program (.error (.callback (.arity c.signature.arity args.size)))
      exact follows_plain (.member site refused :: more) ⟨rfl, rfl, rfl⟩
        (by simpa [Task.Plain] using hm) (by simp [deliver, before, ht, refused])
    | toCaller ticket => exact follows_plain more ⟨rfl, rfl, rfl⟩ hm ht

theorem follows_member {ts : List Task} (site : CallSite) (program : HostProgram (Option Value))
    (ht : m.tasks = ts ++ base) : Follows base (m.control ts) (m.member site program) := by
  have hm : Holds (m.control ts) m := ⟨rfl, rfl, rfl⟩
  unfold member
  split
  · split <;> exact follows_here ⟨rfl, rfl, rfl⟩ ht
  · exact follows_here ⟨rfl, rfl, rfl⟩ ht
  · exact follows_before hm trivial ht
  · exact follows_before ⟨rfl, rfl, rfl⟩ trivial ht
  · exact follows_callback [] _ _ _ _ (by simp) ht
  · unfold callbackFromMember
    split
    · exact follows_before hm trivial ht
    · split
      · exact follows_before hm trivial ht
      · split
        · exact follows_before hm trivial ht
        · exact follows_callback [] _ _ _ _ (by simp) ht

theorem follows_perform {ts : List Task} {t : Task} (h : t.Plain) (ht : m.tasks = ts ++ base) :
    Follows base (m.control ts) (m.perform t) := by
  have hp := m.performs t
  generalize m.perform t = m' at hp ⊢
  cases hp with
  | word hw => exact follows_word hw ht
  | @served _ r requests =>
    have ht' : ({ m with requests }.before t).tasks = [t] ++ ts ++ base := by simp [before, ht]
    exact follows_callback [t] r.callback r.args _ true (by simpa using h) ht'
  | @breaks v =>
    let m' := { m with gate := { m.gate with stepNext := false } }.before (.resolve v)
    obtain ⟨h1, h2⟩ := m'.pause_control .stepping
    have hi := m'.pause_interp .stepping
    refine follows_plain [.resolve v] ⟨by rw [hi]; rfl, by rw [hi]; rfl, h2⟩
      (by simp [Task.Plain]) (h1.trans ?_)
    simp [m', before, ht]
  | next => exact h.elim
  | ended => exact h.elim
  | left => exact h.elim
  | answer => exact h.elim
  | @member site program => exact follows_member site program ht

/-! ## Moves -/

/-- Some change of the control with the tasks `ts` above the base has led to the machine. -/
def Changed (base : List Task) (k : Control) (m : Machine) : Prop :=
  ∃ tasks, m.tasks = tasks ++ base ∧ k.Change (m.control tasks)

theorem Follows.changed {ts : List Task} {m' : Machine} {t : Task} (hs : m.status = .proceeding)
    (ht : t.Plain) (h : Follows base (m.control ts) m') :
    Changed base (m.control (t :: ts)) m' := by
  obtain ⟨tasks, h1, h2⟩ := h
  exact ⟨tasks, h1, .task (k := m.control ts) ht (by simp [control, hs, Status.phase]) h2⟩

theorem deliver_control (m : Machine) (r : Except EvalError (Option Value)) (reply : Reply) :
    ∃ more : List Task, (∀ t ∈ more, t.Plain) ∧ (m.deliver r reply).tasks = more ++ m.tasks ∧
      ∀ tasks, (m.deliver r reply).control tasks = m.control tasks := by
  cases reply with
  | toMember site program =>
    exact ⟨[.member site (program r)], by simp [Task.Plain], rfl, fun _ => rfl⟩
  | toCaller ticket => exact ⟨[], by simp, rfl, fun _ => rfl⟩

theorem changed_catch {ts : List Task} {returns : Option HostType} {depth : Nat}
    {servingBefore : Bool} {reply : Reply} {i : Interp} (e : EvalError)
    (hs : m.status.phase ≠ .waiting) (hi : Edits m.interp i) (ht : m.tasks = ts ++ base) :
    Changed base (m.control (.callback returns depth servingBefore reply :: ts))
      ({ m with interp := i }.endCallback depth servingBefore reply (.error e)) := by
  obtain ⟨more, h1, h2, h3⟩ := deliver_control
    { m with
      interp := { i with calls := i.calls.truncate depth }, serving := servingBefore,
      status := .proceeding } (.error e) reply
  refine ⟨more ++ ts, h2.trans (by simp [ht]), ?_⟩
  rw [endCallback, h3]
  have hc : i.calls = (m.control ts).calls := hi.calls_eq
  simp only [control, hc]
  exact .caught (k := m.control ts) hs hi.outer_eq h1

theorem changed_answer {ts : List Task} {returns : Option HostType} {depth : Nat}
    {servingBefore : Bool} {reply : Reply} {i : Interp} (v : Option Value)
    (hs : m.status = .proceeding) (hi : Edits m.interp i) (ht : m.tasks = ts ++ base) :
    Changed base (m.control (.callback returns depth servingBefore reply :: ts))
      ({ m with interp := i }.endCallback depth servingBefore reply (.ok v)) := by
  obtain ⟨more, h1, h2, h3⟩ := deliver_control
    { m with interp := i, serving := servingBefore, status := .proceeding } (.ok v) reply
  refine ⟨more ++ ts, h2.trans (by simp [ht]), ?_⟩
  rw [endCallback, h3]
  have hc : i.calls = (m.control ts).calls := hi.calls_eq
  simp only [control, hc, hs]
  exact .answer (k := { m.control ts with phase := .proceeding }) rfl hi.outer_eq h1

theorem changed_perform {ts : List Task} (t : Task) (hs : m.status = .proceeding)
    (ht : m.tasks = ts ++ base) : Changed base (m.control (t :: ts)) (m.perform t) := by
  cases t with
  | walk items position =>
    simp only [perform]
    split
    · next v _ =>
      exact ⟨.element v :: .walk items (position + 1) :: ts, by simp [ht],
        .next (k := m.control ts) v (by simp [control, hs, Status.phase])⟩
    · exact ⟨ts, ht, .ended (k := m.control ts) (by simp [control, hs, Status.phase])⟩
  | leaveScope =>
    exact ⟨ts, ht, .leave (k := m.control ts) (by simp [control, hs, Status.phase])⟩
  | callback returns depth servingBefore reply =>
    have hi := (Interp.edits_callbackResult returns m.interp).1
    simp only [perform]
    rcases hr : Interp.callbackResult returns m.interp with ⟨e | v, i⟩
    · rw [hr] at hi
      exact changed_catch e (by simp [hs, Status.phase]) hi ht
    · rw [hr] at hi
      exact changed_answer v hs hi ht
  | _ => refine Follows.changed hs ?_ (follows_perform ?_ ht) <;> trivial

theorem changed_unwind {ts : List Task} {e : EvalError} (t : Task) (hs : m.status = .raising e)
    (ht : m.tasks = ts ++ base) : Changed base (m.control (t :: ts)) (m.unwind e t) := by
  have hk : (m.control ts).phase = .raising e := by simp [control, hs, Status.phase]
  unfold unwind
  split
  · exact ⟨ts, ht, .leave (k := m.control ts) (by simp [hk])⟩
  · exact changed_catch (i := m.interp) e (by simp [hs, Status.phase]) .refl ht
  · next h1 h2 =>
    exact ⟨ts, ht, .unwind (k := m.control ts) hk (fun h => h1 h) fun _ _ _ _ h => h2 _ _ _ _ h⟩

theorem changed_idle {ts : List Task} {m' : Machine} (hc : m'.control ts = m.control ts)
    (ht : m'.tasks = ts ++ base) : Changed base (m.control ts) m' := by
  refine ⟨ts, ht, ?_⟩
  rw [hc]
  exact .idle _

theorem changed_woken {ts : List Task} {m' : Machine} (hs : m.status.phase = .waiting)
    (hc : m'.control ts = { m.control ts with phase := .proceeding }) (ht : m'.tasks = ts ++ base) :
    Changed base (m.control ts) m' := by
  refine ⟨ts, ht, ?_⟩
  rw [hc]
  exact .woken hs

theorem changed_begun {ts : List Task} {m' : Machine} {t : Task} (hs : m.status.phase = .waiting)
    (hp : t.Plain) (hc : m'.control (t :: ts) =
      { m.control ts with tasks := t :: ts, phase := .proceeding })
    (ht : m'.tasks = t :: ts ++ base) : Changed base (m.control ts) m' := by
  refine ⟨t :: ts, ht, ?_⟩
  rw [hc]
  exact .begun hs hp

theorem changed_step {ts : List Task} (ht : m.tasks = ts ++ base)
    (hn : ∀ r, ¬ m.Returned base r) : Changed base (m.control ts) m.step := by
  unfold step
  split
  · next t tasks hs htt =>
    cases ts with
    | nil => exact absurd ⟨ht, hs⟩ (hn (.ok ()))
    | cons t' ts =>
      obtain ⟨rfl, rfl⟩ := List.cons.inj (htt.symm.trans ht)
      exact changed_perform (m := { m with tasks := ts ++ base }) t hs rfl
  · next e t tasks hs htt =>
    cases ts with
    | nil => exact absurd ⟨ht, hs⟩ (hn (.error e))
    | cons t' ts =>
      obtain ⟨rfl, rfl⟩ := List.cons.inj (htt.symm.trans ht)
      exact changed_unwind (m := { m with tasks := ts ++ base }) t hs rfl
  · exact changed_idle rfl ht

/-- A move from a machine that has not returned to the base changes its control above it. -/
theorem move_change {ts : List Task} (x : Move) (ht : m.tasks = ts ++ base)
    (hn : ∀ r, ¬ m.Returned base r) : Changed base (m.control ts) (m.move x) := by
  cases x with
  | step => exact changed_step ht hn
  | request r => exact changed_idle rfl ht
  | receive =>
    simp only [move, receive, take]
    split
    · exact changed_idle rfl ht
    · split
      · next e pauses hs =>
        by_cases hp : (pauses && m.gate.paused) = true
        · exact changed_idle (by simp [control, hs, hp, Status.phase]) ht
        · exact changed_woken (by simp [hs, Status.phase]) (by simp [control, hp, Status.phase]) ht
      · next site call hs =>
        exact changed_begun
          (t := .member { site with remote := true } (m.interp.setting.registry.invoke call))
          (by simp [hs, Status.phase]) trivial rfl (by simp [before, ht])
      · exact changed_idle rfl ht
  | resume stepNext =>
    simp only [move, resume]
    split
    · next hs => exact changed_woken (by simp [hs, Status.phase]) rfl ht
    · exact changed_idle rfl ht
  | dropObserver =>
    simp only [move, dropObserver]
    split
    · next e pauses hs => exact changed_woken (by simp [hs, Status.phase]) rfl ht
    · next site call hs =>
      exact changed_begun (t := .member site (m.interp.setting.registry.invoke call))
        (by simp [hs, Status.phase]) trivial rfl (by simp [before, ht])
    · exact changed_idle rfl ht

/-! ## Runs in parts -/

/-- Tasks above others stay above them until all that was to be done before those is over. -/
theorem Run.above_or_returns {m' : Machine} {ts : List Task} {xs : List Move} (mid : List Task)
    (h : Run base m xs m') (ht : m.tasks = ts ++ (mid ++ base)) :
    (∃ ts', m'.tasks = ts' ++ (mid ++ base) ∧ Run (mid ++ base) m xs m') ∨
      ∃ us ws m₁ r, xs = us ++ ws ∧ Run (mid ++ base) m us m₁ ∧
        m₁.Returned (mid ++ base) r ∧ Run base m₁ ws m' := by
  induction h with
  | refl => exact .inl ⟨ts, ht, .refl m⟩
  | @snoc m₁ xs x hrun hn ih =>
    obtain ⟨ts', hts, habove⟩ | ⟨us, ws, m₂, r, rfl, hus, hr, hws⟩ := ih
    · by_cases hret : ∃ r, m₁.Returned (mid ++ base) r
      · obtain ⟨r, hr⟩ := hret
        exact .inr ⟨xs, [x], m₁, r, rfl, habove, hr, .snoc x (.refl m₁) hn⟩
      · have hn' : ∀ r, ¬ m₁.Returned (mid ++ base) r := fun r hr => hret ⟨r, hr⟩
        obtain ⟨ts'', hts', -⟩ := move_change x hts hn'
        exact .inl ⟨ts'', hts', .snoc x habove hn'⟩
    · exact .inr ⟨us, ws ++ [x], m₂, r, by rw [List.append_assoc], hus, hr, .snoc x hws hn⟩

/-- What is to be done before some of the tasks above the base is over at some time of a run that
returns to the base. -/
theorem Run.returns {m' : Machine} {ts : List Task} {xs : List Move} {r : Except EvalError Unit}
    (mid : List Task) (h : Run base m xs m') (hr : m'.Returned base r)
    (ht : m.tasks = ts ++ (mid ++ base)) (hmid : mid ≠ []) :
    ∃ us ws m₁ r₁, xs = us ++ ws ∧ Run (mid ++ base) m us m₁ ∧
      m₁.Returned (mid ++ base) r₁ ∧ Run base m₁ ws m' := by
  obtain ⟨ts', hts', -⟩ | hfound := h.above_or_returns mid ht
  · have hlength := congrArg List.length (hr.1.symm.trans hts')
    have hpos := List.length_pos_iff.2 hmid
    simp only [List.length_append] at hlength
    omega
  · exact hfound

end Machine

end WordStack
