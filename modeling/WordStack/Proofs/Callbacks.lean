import WordStack.Proofs.Bindings
import WordStack.Proofs.Frames
import WordStack.Proofs.Sessions

/-!
# What a callback leaves as it was

The body of a callback is walked above the task that takes its result (`taker`). A run that comes
back to this task has left the frames from before at the bottom and the put-scopes around the
innermost one (`callback_end`), and taking the result drops what an error has left above them. So
whatever the callback does, and by whatever way it came to be run (`Calls`), the control of the
interpreter is afterwards what it was: `KeepsControl`.

From outside a callback is run on an idle machine, where it is served without waiting for anybody
(`Undisturbed`): the run ends with the answer, unless it does not end at all.
-/

namespace WordStack

/-- When the task is over, a callback is still served for someone else. -/
def Task.ServesOn : Task → Prop
  | .callback _ _ servingBefore _ => servingBefore = true
  | _ => True

theorem Task.FollowsUp.servesOn {t : Task} (h : t.FollowsUp) : t.ServesOn := by
  cases t <;> trivial

namespace Machine

/-- The frames, the put-scopes around the innermost one, and whether a callback is served are as
in `m`. -/
structure KeepsControl (m m' : Machine) : Prop where
  calls : m'.interp.calls = m.interp.calls
  putDepth : m'.interp.putWords.depth = m.interp.putWords.depth
  putOuter : m'.interp.putWords.outer = m.interp.putWords.outer
  serving : m'.serving = m.serving

theorem KeepsControl.trans {m₁ m₂ m₃ : Machine} (h : m₁.KeepsControl m₂)
    (h' : m₂.KeepsControl m₃) : m₁.KeepsControl m₃ :=
  ⟨h'.calls.trans h.calls, h'.putDepth.trans h.putDepth, h'.putOuter.trans h.putOuter,
    h'.serving.trans h.serving⟩

/-- The task that takes the result of a callback which begins at `m`. -/
def taker (m : Machine) (c : Callback) (reply : Reply) : Task :=
  .callback c.signature.returns m.interp.calls.depth m.serving reply

/-- The arguments are pushed, and the body is to be walked above the task that takes the result. -/
def begun (m : Machine) (c : Callback) (args : Array Value) (reply : Reply) (serving : Bool) :
    Machine :=
  { m with
    interp := { m.interp with stack := ⟨m.interp.stack.values ++ args⟩ }
    tasks := m.taker c reply :: m.tasks
    serving }

/-- With its next step the machine runs a callback: from `m₀`, which has left to do what comes after
it, for `reply`, and for someone else if `serving`. -/
inductive Calls (c : Callback) (args : Array Value) (m : Machine) :
    Machine → Reply → Bool → Prop where
  /-- A member runs it as a part of its host call, on the spot or at the observer's. -/
  | context {site : CallSite} {k : Except EvalError (Option Value) → HostProgram (Option Value)}
      {ts : List Task} : m.status = .proceeding → m.tasks = .member site (.call c args k) :: ts →
      (site.remote = true → m.requests = []) →
      Calls c args m { m with tasks := ts } (.toMember site k) (m.serving || site.remote)
  /-- A member runs it from outside of its host call, at the observer's. -/
  | outside {site : CallSite}
      {k : Except CallbackError (Option Value) → HostProgram (Option Value)}
      {ts : List Task} : m.status = .proceeding → m.tasks = .member site (.invoke c args k) :: ts →
      m.requests = [] → args.size = c.signature.arity → c.attached = true → site.remote = true →
      Calls c args m { m with tasks := ts }
        (.toMember site fun r => k (r.mapError fun e => .failed e.message)) true
  /-- Someone outside of the run has asked for it, and the run comes to an element. -/
  | element {v : Value} {ts : List Task} {ticket : Nat} {requests : List Request} :
      m.status = .proceeding → m.tasks = .element v :: ts →
      m.requests = ⟨c, args, ticket⟩ :: requests →
      Calls c args m { m with requests } (.toCaller ticket) true
  /-- Someone outside of the run has asked for it, and a host call waits at the observer's. -/
  | waiting {site : CallSite} {program : HostProgram (Option Value)} {ts : List Task}
      {ticket : Nat} {requests : List Request} :
      m.status = .proceeding → m.tasks = .member site program :: ts → site.remote = true →
      m.requests = ⟨c, args, ticket⟩ :: requests →
      Calls c args m { m with requests } (.toCaller ticket) true

/-- The callback that began at `m` is over, and who wants its result has got it; the machine `m'`
goes on from there. If the body has failed, the result is that failure. -/
structure Answered (m : Machine) (reply : Reply) (r : Except EvalError Unit) (m' : Machine) :
    Prop where
  control : m.KeepsControl m'
  status : m'.status = .proceeding
  result : ∃ (m₁ : Machine) (a : Except EvalError (Option Value)), m₁.tasks = m.tasks ∧
    m' = m₁.deliver a reply ∧ ∀ e, r = .error e → a = .error e

variable {m m₀ m₁ : Machine} {c : Callback} {args : Array Value} {reply : Reply} {serving : Bool}
  {xs : List Move} {r : Except EvalError Unit}

/-! ## How a callback begins -/

theorem Calls.control (h : m.Calls c args m₀ reply serving) : m.KeepsControl m₀ := by
  cases h <;> exact ⟨rfl, rfl, rfl, rfl⟩

theorem Calls.step_eq (h : m.Calls c args m₀ reply serving) :
    m.step = m₀.callback c args reply serving := by
  cases h with
  | context hs ht hr =>
    rw [step_of_proceeding hs ht]
    simp only [perform]
    split
    · next r requests hremote hrequests => cases (hr hremote).symm.trans hrequests
    · rfl
  | outside hs ht hr hfit hattached hremote =>
    rw [step_of_proceeding hs ht]
    simp [perform, hr, hremote, member, callbackFromMember, hfit, hattached]
  | element hs ht hr =>
    rw [step_of_proceeding hs ht]
    simp [perform, Machine.element, hr, before, serve, ← ht]
  | waiting hs ht hremote hr =>
    rw [step_of_proceeding hs ht]
    simp [perform, hremote, hr, before, serve, ← ht]

theorem Calls.status_eq (h : m.Calls c args m₀ reply serving) : m₀.status = .proceeding := by
  cases h <;> assumption

theorem callback_of_misfit (h : args.size ≠ c.signature.arity) : m.callback c args reply serving =
    m.deliver (.error (.callback (.arity c.signature.arity args.size))) reply := by
  rw [callback, if_neg h]

/-- A callback with as many arguments as it wants walks its body. -/
theorem callback_of_fit (h : args.size = c.signature.arity) : m.callback c args reply serving =
    (m.begun c args reply serving).enter c.body [] := by
  rw [callback, if_pos h]
  unfold enter begun
  dsimp only
  split <;> rfl

/-! ## How a callback ends -/

/-- What the body of a callback leaves: the frames from before, with more above them only after an
error, and the put-scopes around the innermost one. -/
theorem callback_end (hs : m.status = .proceeding) (hfit : args.size = c.signature.arity)
    (h : Run (m.taker c reply :: m.tasks) (m.callback c args reply serving) xs m₁)
    (hr : m₁.Returned (m.taker c reply :: m.tasks) r) :
    (∃ left : List Frame,
      m₁.interp.calls.frames.toList = m.interp.calls.frames.toList ++ left ∧
        (r = .ok () → left = [])) ∧
    m₁.interp.calls.limit = m.interp.calls.limit ∧
    m₁.interp.putWords.outer = m.interp.putWords.outer := by
  have hl : m₁.interp.calls.limit = m.interp.calls.limit :=
    ((m.callback_persists c args reply serving).trans h.persists).limit
  rw [callback_of_fit hfit] at h
  have hbody : Follows (m.taker c reply :: m.tasks) ((m.begun c args reply serving).control [])
      ((m.begun c args reply serving).enter c.body []) :=
    follows_enter [] c.body (.word rfl (by simp)) rfl
  obtain ⟨ts, ht⟩ := hbody.traced hs
  obtain ⟨ts', ht'⟩ := h.traced ht
  obtain rfl : ts' = [] := by simpa using ht'.tasks.symm.trans hr.1
  obtain ⟨left, hf, hok, -⟩ := ht'.frames_left hr
  exact ⟨⟨left, hf, hok⟩, hl, (h.scoped hbody.scoped).outer_eq hr.1⟩

theorem deliver_keeps (m : Machine) (a : Except EvalError (Option Value)) (reply : Reply) :
    m.KeepsControl (m.deliver a reply) ∧ (m.deliver a reply).status = m.status := by
  cases reply <;> exact ⟨⟨rfl, rfl, rfl, rfl⟩, rfl⟩

/-- Dropping the frames above those from before leaves those from before. -/
theorem truncate_left {k k' : CallStack} {left : List Frame} (hl : k'.limit = k.limit)
    (hf : k'.frames.toList = k.frames.toList ++ left) : k'.truncate k.depth = k := by
  refine CallStack.eq_of_toList ?_ hl
  have hd : k.depth = k.frames.toList.length := by simp [CallStack.depth]
  rw [hd]
  exact CallStack.truncate_toList hf

/-- Taking the result drops the frames that an error has left. -/
theorem answered_of_end {a : Except EvalError (Option Value)} {left : List Frame}
    (ht : m₁.tasks = m.tasks)
    (hf : m₁.interp.calls.frames.toList = m.interp.calls.frames.toList ++ left)
    (hleft : ∀ v, a = .ok v → left = []) (hl : m₁.interp.calls.limit = m.interp.calls.limit)
    (ho : m₁.interp.putWords.outer = m.interp.putWords.outer)
    (ha : ∀ e, r = .error e → a = .error e) :
    m.Answered reply r (m₁.endCallback m.interp.calls.depth m.serving reply a) := by
  let back : Machine := { m₁ with
    interp := { m₁.interp with calls := m.interp.calls }, serving := m.serving,
    status := .proceeding }
  have hend : m₁.endCallback m.interp.calls.depth m.serving reply a = back.deliver a reply := by
    cases a with
    | ok v =>
      have hcalls : m₁.interp.calls = m.interp.calls :=
        CallStack.eq_of_toList (by rw [hf, hleft v rfl, List.append_nil]) hl
      simp only [endCallback, hcalls, back]
    | error e => simp only [endCallback, truncate_left hl hf, back]
  have hdepth : m₁.interp.putWords.depth = m.interp.putWords.depth := by
    rw [Scopes.depth, Scopes.depth, ho]
  obtain ⟨hk, hstatus⟩ := deliver_keeps back a reply
  rw [hend]
  exact ⟨⟨hk.calls, hk.putDepth.trans hdepth, hk.putOuter.trans ho, hk.serving⟩, hstatus,
    back, a, ht, rfl, ha⟩

/-- The step that takes the result of a callback puts the control back, whatever the result. -/
theorem step_answered (hs : m.status = .proceeding) (hfit : args.size = c.signature.arity)
    (h : Run (m.taker c reply :: m.tasks) (m.callback c args reply serving) xs m₁)
    (hr : m₁.Returned (m.taker c reply :: m.tasks) r) : m.Answered reply r m₁.step := by
  obtain ⟨⟨left, hf, hok⟩, hl, ho⟩ := callback_end hs hfit h hr
  cases r with
  | error e =>
    rw [step_of_raising hr.2 hr.1]
    have htasks : ({ m₁ with tasks := m.tasks } : Machine).tasks = m.tasks := rfl
    refine answered_of_end (a := .error e) htasks hf (fun v hv => ?_) hl ho fun e' he => ?_
    · cases hv
    · cases he
      rfl
  | ok u =>
    rw [step_of_proceeding hr.2 hr.1]
    have hi := (Interp.edits_callbackResult c.signature.returns m₁.interp).1
    let m₂ : Machine := { m₁ with
      tasks := m.tasks, interp := (Interp.callbackResult c.signature.returns m₁.interp).2 }
    have htasks : m₂.tasks = m.tasks := rfl
    have hf₂ : m₂.interp.calls.frames.toList = m.interp.calls.frames.toList ++ left := by
      simpa only [m₂, hi.calls_eq] using hf
    have hl₂ : m₂.interp.calls.limit = m.interp.calls.limit := by
      simpa only [m₂, hi.calls_eq] using hl
    exact answered_of_end htasks hf₂ (fun _ _ => hok rfl) hl₂ (hi.outer_eq.trans ho)
      fun e he => by cases he

/-! ## Serving on an idle machine -/

/-- Above the tasks `base` the machine serves a callback for someone else all the while, and does
not wait. -/
structure Undisturbed (base : List Task) (m : Machine) : Prop where
  serving : m.serving = true
  awake : m.status.phase ≠ .waiting
  tasks : ∃ ts, m.tasks = ts ++ base ∧ ∀ t ∈ ts, t.ServesOn

variable {base : List Task}

namespace Undisturbed

theorem before {t : Task} (h : m.Undisturbed base) (ht : t.ServesOn) :
    (m.before t).Undisturbed base := by
  obtain ⟨ts, hts, hall⟩ := h.tasks
  refine ⟨h.serving, h.awake, t :: ts, ?_, ?_⟩
  · simp [Machine.before, hts]
  · simpa using ⟨ht, hall⟩

theorem enter (h : m.Undisturbed base) (items : ListId) {after : List Task}
    (ha : ∀ t ∈ after, t.ServesOn) : (m.enter items after).Undisturbed base := by
  obtain ⟨ts, hts, hall⟩ := h.tasks
  have hafter : ∀ t ∈ after ++ ts, t.ServesOn := fun t ht =>
    (List.mem_append.1 ht).elim (ha t) (hall t)
  unfold Machine.enter
  rcases m.interp.calls.push items (m.interp.putWords.depth - 1) with ⟨e | _, calls⟩
  · exact ⟨h.serving, by simp [Status.phase], after ++ ts, by simp [hts], hafter⟩
  · refine ⟨h.serving, h.awake, .walk items 0 :: (after ++ ts), by simp [hts], ?_⟩
    simpa [Task.ServesOn] using hafter

theorem deliver (h : m.Undisturbed base) (a : Except EvalError (Option Value)) (reply : Reply) :
    (m.deliver a reply).Undisturbed base := by
  cases reply with
  | toMember site k => exact h.before trivial
  | toCaller ticket => exact ⟨h.serving, h.awake, h.tasks⟩

theorem callback (h : m.Undisturbed base) (c : Callback) (args : Array Value) (reply : Reply)
    {serving : Bool} (hserving : serving = true) :
    (m.callback c args reply serving).Undisturbed base := by
  unfold Machine.callback
  split
  · refine Undisturbed.enter ?_ _ (by simpa [Task.ServesOn] using h.serving)
    exact ⟨hserving, h.awake, h.tasks⟩
  · exact h.deliver _ _

theorem endCallback (h : m.Undisturbed base) (depth : Nat) {servingBefore : Bool} (reply : Reply)
    (a : Except EvalError (Option Value)) (hserving : servingBefore = true) :
    (m.endCallback depth servingBefore reply a).Undisturbed base := by
  unfold Machine.endCallback
  refine Undisturbed.deliver ?_ _ _
  exact ⟨hserving, by simp [Status.phase], h.tasks⟩

/-- Nobody takes anything while a callback is served. -/
theorem observed_eq (h : m.Undisturbed base) : m.observed = false := by
  simp [observed, h.serving]

theorem follow (h : m.Undisturbed base) {next : Next}
    (hn : ∀ items after, next = .walk items after → ∀ t ∈ after, t.ServesOn) :
    (m.follow next).Undisturbed base := by
  cases next with
  | done => exact h
  | walk items after => exact h.enter items (hn items after rfl)
  | pause =>
    have hpause : m.pause .breaking = m := by rw [Machine.pause, if_pos h.serving]
    rw [Machine.follow, hpause]
    exact h
  | write channel message =>
    obtain ⟨htasks, hstatus⟩ := m.queue_keeps (.output channel message)
    have hserving := (m.notify_control (.output channel message)).2
    rw [notify, h.observed_eq] at hserving
    rw [Machine.follow, notify, h.observed_eq]
    exact ⟨hserving.trans h.serving, by simpa [hstatus] using h.awake,
      by simpa [htasks] using h.tasks⟩
  | call call keep =>
    rw [Machine.follow, marshal, h.observed_eq]
    exact h.before trivial

theorem act (h : m.Undisturbed base) {word : Eval Next}
    (hw : ∀ items after, (word m.interp).1 = .ok (.walk items after) → ∀ t ∈ after, t.ServesOn) :
    (m.act word).Undisturbed base := by
  unfold Machine.act
  split
  · next next i hi =>
    have hm : Undisturbed base { m with interp := i } := ⟨h.serving, h.awake, h.tasks⟩
    exact hm.follow fun items after hn => hw items after (by rw [hi, hn])
  · exact ⟨h.serving, by simp [Status.phase], h.tasks⟩

theorem word (h : m.Undisturbed base) {t : Task} {word : Eval Next} (hw : m.word? t = some word) :
    (m.act word).Undisturbed base := by
  refine h.act fun items after ha u hu => ?_
  obtain hu | rfl := word_after hw ha u hu
  · exact hu.servesOn
  · trivial

theorem member (h : m.Undisturbed base) (site : CallSite)
    (program : HostProgram (Option Value)) : (m.member site program).Undisturbed base := by
  cases program with
  | done r =>
    simp only [Machine.member]
    split <;> exact ⟨h.serving, h.awake, h.tasks⟩
  | fail e => exact ⟨h.serving, by simp [Machine.member, Status.phase], h.tasks⟩
  | read k => exact h.before trivial
  | write f k =>
    have hm : Undisturbed base { m with interp := { m.interp with store := f m.interp.store } } :=
      ⟨h.serving, h.awake, h.tasks⟩
    exact hm.before trivial
  | call c args k => exact h.callback c args _ (by simp [h.serving])
  | invoke c args k =>
    simp only [Machine.member, callbackFromMember]
    split
    · exact h.before trivial
    · split
      · exact h.before trivial
      · split
        · exact h.before trivial
        · exact h.callback c args _ rfl

theorem perform (h : m.Undisturbed base) {t : Task} (ht : t.ServesOn) :
    (m.perform t).Undisturbed base := by
  have hp := m.performs t
  generalize m.perform t = m' at hp ⊢
  cases hp with
  | word hw => exact h.word hw
  | @served _ r requests =>
    have hm : Undisturbed base { m with requests } := ⟨h.serving, h.awake, h.tasks⟩
    exact (hm.before ht).callback _ _ _ rfl
  | breaks hb => cases h.serving.symm.trans (breaksIn_iff.1 hb).2.1
  | @next items position v =>
    obtain ⟨ts, hts, hall⟩ := h.tasks
    refine ⟨h.serving, h.awake, .element v :: .walk items (position + 1) :: ts, by simp [hts], ?_⟩
    simpa [Task.ServesOn] using hall
  | ended => exact ⟨h.serving, h.awake, h.tasks⟩
  | left => exact ⟨h.serving, h.awake, h.tasks⟩
  | @answer returns depth servingBefore reply =>
    have hm : Undisturbed base { m with interp := (Interp.callbackResult returns m.interp).2 } :=
      ⟨h.serving, h.awake, h.tasks⟩
    exact hm.endCallback depth reply _ ht
  | @member site program => exact h.member site program

theorem unwind (h : m.Undisturbed base) (e : EvalError) {t : Task} (ht : t.ServesOn) :
    (m.unwind e t).Undisturbed base := by
  cases t with
  | callback returns depth servingBefore reply => exact h.endCallback depth reply (.error e) ht
  | leaveScope => exact ⟨h.serving, h.awake, h.tasks⟩
  | _ => exact h

/-- What is served for someone else goes on without waiting. -/
theorem step (h : m.Undisturbed base) (hn : ∀ r, ¬ m.Returned base r) :
    m.step.Undisturbed base := by
  obtain ⟨ts, hts, hall⟩ := h.tasks
  cases ts with
  | nil =>
    obtain ⟨r, hr⟩ := returned_of_phase h.awake hts
    exact absurd hr (hn r)
  | cons t ts =>
    have ht : m.tasks = t :: (ts ++ base) := hts
    have htail : Undisturbed base { m with tasks := ts ++ base } :=
      ⟨h.serving, h.awake, ts, rfl, fun u hu => hall u (by simp [hu])⟩
    obtain ⟨e | _, hr⟩ := returned_of_phase h.awake rfl
    · rw [step_of_raising hr.2 ht]
      exact htail.unwind e (hall t (by simp))
    · rw [step_of_proceeding hr.2 ht]
      exact htail.perform (hall t (by simp))

/-- While there is something to do above the base, the machine goes on. -/
theorem waits_eq {t : Task} {ts : List Task} (h : m.Undisturbed (t :: ts)) : m.waits = false := by
  obtain ⟨us, hus, -⟩ := h.tasks
  obtain ⟨u, vs, hvs⟩ : ∃ u vs, m.tasks = u :: vs := by
    cases us with
    | nil => exact ⟨t, ts, hus⟩
    | cons u us => exact ⟨u, us ++ t :: ts, hus⟩
  obtain ⟨e | _, hr⟩ := returned_of_phase h.awake rfl
  · rw [waits, hr.2, hvs]
    rfl
  · rw [waits, hr.2, hvs]
    rfl

end Undisturbed

/-- What steps keep until the return to `rest` holds at that return, or at the end. -/
theorem run_induct {rest : List Task} {P : Machine → Prop} (fuel : Nat) (hm : P m)
    (hstep : ∀ m, P m → (∀ r, ¬ m.Returned rest r) → P m.step) :
    (∃ m₁ r n, P m₁ ∧ m₁.Returned rest r ∧ m.run fuel = m₁.run n) ∨ P (m.run fuel) := by
  induction fuel generalizing m with
  | zero => exact .inr hm
  | succ fuel ih =>
    by_cases hr : ∃ r, m.Returned rest r
    · obtain ⟨r, hr⟩ := hr
      exact .inl ⟨m, r, fuel + 1, hm, hr, rfl⟩
    · rw [← run_step]
      exact ih (hstep m hm fun r hr' => hr ⟨r, hr'⟩)

/-- A callback that is served on an idle machine is answered, and the machine is idle again, once
the steps suffice. -/
theorem serve_answered {fuel ticket : Nat} (hs : m.status = .proceeding) (ht : m.tasks = [])
    (hfit : args.size = c.signature.arity)
    (hw : ((m.serve ⟨c, args, ticket⟩).run fuel).waits = true) :
    ∃ r, m.Answered (.toCaller ticket) r ((m.serve ⟨c, args, ticket⟩).run fuel) := by
  let rest := m.taker c (.toCaller ticket) :: m.tasks
  let start := m.callback c args (.toCaller ticket) true
  let P (m₁ : Machine) : Prop := (∃ xs, Run rest start xs m₁) ∧ m₁.Undisturbed rest
  have hbegin : P start := by
    have hbody : (m.begun c args (.toCaller ticket) true).Undisturbed rest :=
      ⟨rfl, by simp [begun, hs, Status.phase], [], rfl, by simp⟩
    have henter : start.Undisturbed rest := by
      simp only [start, callback_of_fit hfit]
      exact hbody.enter c.body (by simp)
    exact ⟨⟨[], .refl _⟩, henter⟩
  have hsteps (m₁ : Machine) (h : P m₁) (hn : ∀ r, ¬ m₁.Returned rest r) : P m₁.step := by
    obtain ⟨⟨xs, hrun⟩, hu⟩ := h
    exact ⟨⟨_, hrun.snoc .step hn⟩, hu.step hn⟩
  have hgo : m.serve ⟨c, args, ticket⟩ = start := rfl
  rw [hgo] at hw ⊢
  obtain ⟨m₁, r, n, ⟨⟨xs, hrun⟩, hu⟩, hr, hend⟩ | ⟨-, hu⟩ := run_induct fuel hbegin hsteps
  · have hans := step_answered hs hfit hrun hr
    have hover : m₁.step.waits = true := by
      obtain ⟨m₂, a, ht₂, hm₂, -⟩ := hans.result
      have htasks : m₁.step.tasks = [] := by rw [hm₂, ← ht, ← ht₂]; rfl
      rw [waits, hans.status, htasks]
    rw [hend] at hw ⊢
    cases n with
    | zero => cases hu.waits_eq.symm.trans hw
    | succ n =>
      refine ⟨r, ?_⟩
      rwa [← run_step, run_of_waits hover]
  · cases hu.waits_eq.symm.trans hw

end Machine

/-! ## Callbacks of a session -/

namespace Session

variable {s : Session} {fuel : Nat} {thread : ThreadId} {c : Callback} {args : Array Value}

theorem invoke_of_misfit (h : args.size ≠ c.signature.arity) : s.invoke fuel thread c args =
    (s.tickets, { s with
      tickets := s.tickets + 1
      settled := (s.tickets, .error (.arity c.signature.arity args.size)) :: s.settled }) := by
  simp only [invoke, if_pos h]

/-- Whoever asks, the same thread is recorded as the one that evaluates. -/
theorem invoke_evaluator (s : Session) (fuel : Nat) (thread : ThreadId) (c : Callback)
    (args : Array Value) : (s.invoke fuel thread c args).2.evaluator = s.evaluator := by
  unfold invoke
  dsimp only
  repeat' split
  all_goals rfl

/-- A callback that a free session is asked for is refused, or served at once. -/
theorem invoke_machine (s : Session) (fuel : Nat) (thread : ThreadId) (c : Callback)
    (args : Array Value) (h : s.busy = none) :
    (s.invoke fuel thread c args).2.machine = s.machine ∨
      (s.invoke fuel thread c args).2.machine =
        (s.machine.serve ⟨c, args, s.tickets⟩).run fuel := by
  unfold invoke
  dsimp only
  repeat' split
  · exact .inl rfl
  · exact .inl rfl
  · exact .inl rfl
  · exact .inl rfl
  · exact .inr rfl
  · next hbusy => simp [h] at hbusy

end Session

/-! ## Control -/

/-- By whatever way a callback comes to be run, it leaves the control of the interpreter as it was.
With a wrong number of arguments it fails with the arity, and that is all that happens: to a member
within its host call and to someone whose request is served, in a run or at the end of one, to a
member from outside, and to someone who asks a session. Otherwise a run of the body may end well or
with any error, whatever it has called and however deep: once the result is taken the frames, the
put-scopes around the innermost one and the serving of callbacks are as before. A session, too,
records afterwards who evaluated before, and if it was idle it is idle again. -/
theorem callbacks_keep_control (c : Callback) (args : Array Value) :
    (args.size ≠ c.signature.arity →
      (∀ m m₀ reply serving, Machine.Calls c args m m₀ reply serving →
        m.step = m₀.deliver (.error (.callback (.arity c.signature.arity args.size))) reply ∧
          m.KeepsControl m.step) ∧
      (∀ (m : Machine) ticket, m.serve ⟨c, args, ticket⟩ =
        m.deliver (.error (.callback (.arity c.signature.arity args.size))) (.toCaller ticket)) ∧
      (∀ (m : Machine) site k ts, m.status = .proceeding →
        m.tasks = .member site (.invoke c args k) :: ts →
        (site.remote = true → m.requests = []) → m.step = { m with
          tasks := .member site (k (.error (.arity c.signature.arity args.size))) :: ts }) ∧
      ∀ (s : Session) fuel thread, s.invoke fuel thread c args = (s.tickets, { s with
        tickets := s.tickets + 1
        settled := (s.tickets, .error (.arity c.signature.arity args.size)) :: s.settled })) ∧
    (args.size = c.signature.arity →
      (∀ m m₀ reply serving, Machine.Calls c args m m₀ reply serving → ∀ xs r m₁,
        Machine.Run (m₀.taker c reply :: m₀.tasks) m.step xs m₁ →
        m₁.Returned (m₀.taker c reply :: m₀.tasks) r →
        m₀.Answered reply r m₁.step ∧ m.KeepsControl m₁.step) ∧
      (∀ (m : Machine) fuel ticket, m.status = .proceeding → m.tasks = [] →
        ((m.serve ⟨c, args, ticket⟩).run fuel).waits = true →
        ∃ r, m.Answered (.toCaller ticket) r ((m.serve ⟨c, args, ticket⟩).run fuel)) ∧
      ∀ (s : Session) fuel thread, (s.invoke fuel thread c args).2.evaluator = s.evaluator ∧
        (s.Idle → s.busy = none → (s.invoke fuel thread c args).2.machine.waits = true →
          (s.invoke fuel thread c args).2.machine = s.machine ∨
            ∃ r, s.machine.Answered (.toCaller s.tickets) r
              (s.invoke fuel thread c args).2.machine)) := by
  refine ⟨fun hmisfit => ⟨?_, fun m ticket => Machine.callback_of_misfit hmisfit, ?_,
      fun s fuel thread => Session.invoke_of_misfit hmisfit⟩,
    fun hfit => ⟨?_, fun m fuel ticket hs ht => Machine.serve_answered hs ht hfit,
      fun s fuel thread => ⟨s.invoke_evaluator fuel thread c args, ?_⟩⟩⟩
  · intro m m₀ reply serving h
    have hstep := h.step_eq.trans (Machine.callback_of_misfit hmisfit)
    refine ⟨hstep, ?_⟩
    rw [hstep]
    exact h.control.trans (m₀.deliver_keeps _ _).1
  · intro m site k ts hs ht hr
    rw [Machine.step_of_proceeding hs ht]
    simp only [Machine.perform]
    split
    · next r requests hremote hrequests => cases (hr hremote).symm.trans hrequests
    · rw [Machine.member, Machine.callbackFromMember, if_pos hmisfit]
      rfl
  · intro m m₀ reply serving h xs r m₁ hrun hr
    rw [h.step_eq] at hrun
    have hans := Machine.step_answered h.status_eq hfit hrun hr
    exact ⟨hans, h.control.trans hans.control⟩
  · intro hidle hbusy hw
    obtain hm | hm := s.invoke_machine fuel thread c args hbusy
    · exact .inl hm
    · rw [hm] at hw ⊢
      exact .inr (Machine.serve_answered hidle.status hidle.tasks hfit hw)

/-- A callback that fails, because it has nothing to put. -/
def puttingNothing : Callback := ⟨0, ⟨0⟩, ⟨[], none⟩, true⟩

/-- A member at the observer's that runs the callback, and does not mind its failure. -/
def calling : Machine :=
  { Machine.failing with
    tasks := [.member ⟨"Demo.Call", true, true⟩ (.call puttingNothing #[] fun _ => .done none)] }

/-- The callback is run by the member, asked for from outside, and asked for with an argument too
many. -/
theorem callbacks_keep_control_of_failing :
    let s : Session := ⟨{}, Machine.failing, none, none, [], none, 0, [], false⟩
    (∃ m₁, calling.step.run 3 = m₁ ∧ m₁.status = .raising .stackUnderflow ∧
      calling.KeepsControl m₁.step) ∧
    (∃ r, Machine.failing.Answered (.toCaller 0) r (s.invoke 5 ⟨1⟩ puttingNothing #[]).2.machine) ∧
    (s.invoke 5 ⟨1⟩ puttingNothing #[.boolean true]).2.settled = [(0, .error (.arity 0 1))] := by
  intro s
  let reply : Reply := .toMember ⟨"Demo.Call", true, true⟩ fun _ => .done none
  have hcall : Machine.Calls puttingNothing #[] calling { calling with tasks := [] } reply true :=
    .context rfl rfl fun _ => rfl
  have begins (m₁ : Machine) (h : 1 < m₁.tasks.length) (r : Except EvalError Unit) :
      ¬ m₁.Returned [calling.taker puttingNothing reply] r := by
    intro hr
    rw [hr.1] at h
    exact absurd h (by decide)
  have hrun : Machine.Run [calling.taker puttingNothing reply] calling.step
      [.step, .step, .step] calling.step.step.step.step :=
    .snoc .step (.snoc .step (.snoc .step (.refl _) (begins _ (by decide)))
      (begins _ (by decide))) (begins _ (by decide))
  have hreturned : calling.step.step.step.step.Returned [calling.taker puttingNothing reply]
      (.error .stackUnderflow) := ⟨rfl, rfl⟩
  obtain ⟨hcalls, -, hsession⟩ := (callbacks_keep_control puttingNothing #[]).2 rfl
  obtain ⟨-, -, -, hrefused⟩ :=
    (callbacks_keep_control puttingNothing #[.boolean true]).1 (by decide)
  refine ⟨⟨_, rfl, hreturned.2, (hcalls _ _ _ _ hcall _ _ _ hrun hreturned).2⟩, ?_, ?_⟩
  · have hmachine : (s.invoke 5 ⟨1⟩ puttingNothing #[]).2.machine =
        (Machine.failing.serve ⟨puttingNothing, #[], 0⟩).run 5 := by
      have hfree : Machine.failing.gate.paused = false := rfl
      have hfit : (0 : Nat) = puttingNothing.signature.arity := rfl
      have hattached : puttingNothing.attached = true := rfl
      simp [Session.invoke, ← hfit, hattached, Session.isGone, hfree, s, Session.serveHere]
    have hw : ((Machine.failing.serve ⟨puttingNothing, #[], 0⟩).run 5).waits = true := rfl
    obtain hm | hans := (hsession s 5 ⟨1⟩).2 ⟨rfl, rfl⟩ rfl (by rw [hmachine, hw])
    · have hanswers : ((Machine.failing.serve ⟨puttingNothing, #[], 0⟩).run 5).answers.isEmpty =
          false := rfl
      rw [← hmachine, hm] at hanswers
      cases hanswers
    · exact hans
  · rw [hrefused]
    rfl

end WordStack
