import WordStack.Proofs.Control
import WordStack.Proofs.HostCalls

/-!
# What a task leaves to others

A task that is performed puts others in its place, serves requests, and gives answers: `Leaves`
says so of each operation, up to a step. What is said of the programs of all members, and holds of
what is left of a program whenever it has gone on (`Hereditary`), then holds of every program in
the tasks of a run: `Inherits.move`. In the same way what is said of all who ask for callbacks from
outside holds of those who get an answer: `Run.inherits`.
-/

namespace WordStack

variable {P : HostProgram (Option Value) → Prop} {T : Nat → Prop}

/-- What holds of a program holds of the rest of it, whatever it reads and however its callbacks
end. -/
structure HostProgram.Hereditary (P : HostProgram (Option Value) → Prop) : Prop where
  fail : ∀ e, P (.fail e)
  read : ∀ {k}, P (.read k) → ∀ s, P (k s)
  write : ∀ {f p}, P (.write f p) → P p
  call : ∀ {c args k}, P (.call c args k) → ∀ r, P (k r)
  invoke : ∀ {c args k}, P (.invoke c args k) → ∀ r, P (k r)

/-- The program runs a callback, and goes on like that with what the callback ends with. -/
def HostProgram.Awaits : HostProgram (Option Value) →
    (Except EvalError (Option Value) → HostProgram (Option Value)) → Prop
  | .call _ _ k, k' => k' = k
  | .invoke _ _ k, k' => k' = fun r => k (r.mapError fun e => .failed e.message)
  | _, _ => False

namespace HostProgram

theorem Hereditary.awaits (hP : Hereditary P) {p : HostProgram (Option Value)}
    {k : Except EvalError (Option Value) → HostProgram (Option Value)} (hp : P p)
    (hk : p.Awaits k) (r : Except EvalError (Option Value)) : P (k r) := by
  cases p with
  | call c args k' =>
    obtain rfl : k = k' := hk
    exact hP.call hp r
  | invoke c args k' =>
    obtain rfl : k = fun r => k' (r.mapError fun e => .failed e.message) := hk
    exact hP.invoke hp _
  | done | fail | read | write => exact hk.elim

theorem hereditary_true : Hereditary fun _ => True :=
  ⟨fun _ => trivial, fun _ _ => trivial, fun _ => trivial, fun _ _ => trivial, fun _ _ => trivial⟩

theorem callsOnly_hereditary : Hereditary CallsOnly :=
  ⟨fun _ => trivial, fun h => h, fun h => h, fun h => h, fun h => h.elim⟩

theorem handsOn_hereditary : Hereditary HandsOn where
  fail _ := trivial
  read h := h
  write h := h
  call h
    | .error e => (h.1 e).handsOn
    | .ok v => h.2 v
  invoke h := h.elim

/-- A callback of a program that hands on failures has failed. -/
theorem HandsOn.failsWith {p : HostProgram (Option Value)}
    {k : Except EvalError (Option Value) → HostProgram (Option Value)} (hp : p.HandsOn)
    (hk : p.Awaits k) (e : EvalError) : (k (.error e)).FailsWith e.rootCause := by
  cases p with
  | call c args k' =>
    obtain rfl : k = k' := hk
    exact hp.1 e
  | invoke c args k' => exact hp.elim
  | done | fail | read | write => exact hk.elim

end HostProgram

/-! ## Tasks -/

/-- The member that waits for a callback runs a program of which `P` holds. A caller outside who
waits for it has a ticket of which `T` holds. -/
def Reply.Satisfies (P : HostProgram (Option Value) → Prop) (T : Nat → Prop) : Reply → Prop
  | .toMember _ k => ∃ p, P p ∧ p.Awaits k
  | .toCaller ticket => T ticket

/-- `P` holds of the program that the task runs, now or once a callback is over, and `T` of the
ticket for which it runs the callback. -/
def Task.Satisfies (P : HostProgram (Option Value) → Prop) (T : Nat → Prop) : Task → Prop
  | .member _ program => P program
  | .callback _ _ _ reply => reply.Satisfies P T
  | _ => True

theorem Task.satisfies_true (t : Task) : t.Satisfies (fun _ => True) fun _ => True := by
  cases t with
  | callback returns depth servingBefore reply =>
    cases reply with
    | toMember site k => exact ⟨.call default #[] k, trivial, rfl⟩
    | toCaller ticket => trivial
  | _ => trivial

theorem Task.FollowsUp.satisfies {t : Task} (h : t.FollowsUp) : t.Satisfies P T := by
  cases t <;> trivial

namespace Machine

/-- From `m` to `m'` answers have been given, after others, for tickets of which `T` holds. -/
def Answers (T : Nat → Prop) (m m' : Machine) : Prop :=
  ∃ new, m'.answers = m.answers ++ new ∧ ∀ a ∈ new, T a.1

/-- Performing a task has led from `m` to `m'`: requests are taken in their order, answers are given
after others, and what has come in its place satisfies `P` and `T`. -/
structure Leaves (P : HostProgram (Option Value) → Prop) (T : Nat → Prop) (m m' : Machine) :
    Prop where
  requests : m'.requests <:+ m.requests
  listening : m'.outbox.listening = m.outbox.listening
  answers : m.Answers T m'
  tasks : ∃ ts, m'.tasks = ts ++ m.tasks ∧ ∀ t ∈ ts, t.Satisfies P T

/-- The programs of all members satisfy `P`, and so do those in the tasks above the base. The
tickets of requests satisfy `T`, and so do those in the tasks above the base. -/
structure Inherits (P : HostProgram (Option Value) → Prop) (T : Nat → Prop) (base : List Task)
    (m : Machine) : Prop where
  registry : m.interp.setting.registry.Satisfies P
  requests : ∀ r ∈ m.requests, T r.ticket
  tasks : ∃ ts, m.tasks = ts ++ base ∧ ∀ t ∈ ts, t.Satisfies P T

variable {base : List Task} (m : Machine)

theorem Answers.refl : m.Answers T m := ⟨[], by simp⟩

theorem Leaves.refl : m.Leaves P T m := ⟨List.suffix_rfl, rfl, .refl m, [], rfl, by simp⟩

variable {m}

/-- The rest of a machine does not matter. -/
theorem Leaves.of_eq {m' : Machine} (hr : m'.requests = m.requests)
    (hl : m'.outbox.listening = m.outbox.listening) (ha : m'.answers = m.answers)
    (ht : m'.tasks = m.tasks) : m.Leaves P T m' :=
  ⟨hr ▸ List.suffix_rfl, hl, ⟨[], by simp [ha]⟩, [], ht, by simp⟩

theorem Answers.isPrefix {m' : Machine} (h : m.Answers T m') : m.answers <+: m'.answers :=
  let ⟨new, heq, _⟩ := h
  ⟨new, heq.symm⟩

theorem Answers.trans {m₁ m₂ : Machine} (h : m.Answers T m₁) (h' : m₁.Answers T m₂) :
    m.Answers T m₂ := by
  obtain ⟨new, heq, hnew⟩ := h
  obtain ⟨new', heq', hnew'⟩ := h'
  refine ⟨new ++ new', by rw [heq', heq, List.append_assoc], fun a ha => ?_⟩
  exact (List.mem_append.1 ha).elim (hnew a) (hnew' a)

theorem Leaves.trans {m₁ m₂ : Machine} (h : m.Leaves P T m₁) (h' : m₁.Leaves P T m₂) :
    m.Leaves P T m₂ := by
  obtain ⟨ts, ht, hts⟩ := h.tasks
  obtain ⟨ts', ht', hts'⟩ := h'.tasks
  refine ⟨h'.requests.trans h.requests, h'.listening.trans h.listening,
    h.answers.trans h'.answers, ts' ++ ts, by simp [ht', ht], fun t hmem => ?_⟩
  exact (List.mem_append.1 hmem).elim (hts' t) (hts t)

/-- Above the base all tasks satisfy `P` and `T` after it, if they did before. -/
theorem Leaves.above {m' : Machine} {ts : List Task} (h : m.Leaves P T m')
    (ht : m.tasks = ts ++ base) (hts : ∀ t ∈ ts, t.Satisfies P T) :
    ∃ ts, m'.tasks = ts ++ base ∧ ∀ t ∈ ts, t.Satisfies P T := by
  obtain ⟨more, hmore, hall⟩ := h.tasks
  refine ⟨more ++ ts, by rw [hmore, ht, List.append_assoc], fun u hu => ?_⟩
  exact (List.mem_append.1 hu).elim (hall u) (hts u)

/-! ## What the operations leave -/

theorem before_leaves (m : Machine) {t : Task} (h : t.Satisfies P T) : m.Leaves P T (m.before t) :=
  ⟨List.suffix_rfl, rfl, .refl _, [t], rfl, by simpa using h⟩

theorem enter_leaves (m : Machine) (items : ListId) {after : List Task}
    (h : ∀ t ∈ after, t.Satisfies P T) : m.Leaves P T (m.enter items after) := by
  unfold enter
  rcases m.interp.calls.push items (m.interp.putWords.depth - 1) with ⟨e | _, calls⟩
  · exact ⟨List.suffix_rfl, rfl, .refl _, after, rfl, h⟩
  · exact ⟨List.suffix_rfl, rfl, .refl _, .walk items 0 :: after, rfl,
      by simpa [Task.Satisfies] using h⟩

theorem notify_leaves (m : Machine) (e : Event) : m.Leaves P T (m.notify e) := by
  obtain ⟨_, _, _, serving, _, ⟨dispatch, listening, _⟩, _, _, _, _⟩ := m
  cases serving <;> cases listening <;> cases dispatch <;> exact .of_eq rfl rfl rfl rfl

theorem pause_leaves (m : Machine) (e : Event) : m.Leaves P T (m.pause e) := by
  obtain ⟨_, _, _, serving, _, ⟨dispatch, listening, _⟩, _, _, _, _⟩ := m
  cases serving <;> cases listening <;> cases dispatch <;> exact .of_eq rfl rfl rfl rfl

theorem marshal_leaves {call : HostCall} (keep : Bool)
    (h : P (m.interp.setting.registry.invoke call)) : m.Leaves P T (m.marshal call keep) := by
  unfold marshal
  dsimp only
  split
  · exact .of_eq rfl rfl rfl rfl
  · exact m.before_leaves h

theorem follow_leaves {next : Next}
    (hcall : ∀ call keep, next = .call call keep → P (m.interp.setting.registry.invoke call))
    (h : ∀ items after, next = .walk items after → ∀ t ∈ after, t.Satisfies P T) :
    m.Leaves P T (m.follow next) := by
  cases next with
  | done => exact .refl m
  | walk items after => exact m.enter_leaves items (h items after rfl)
  | pause => exact m.pause_leaves _
  | write channel message => exact m.notify_leaves _
  | call call keep => exact marshal_leaves keep (hcall call keep rfl)

theorem act_leaves {word : Eval Next} (hw : m.interp.Persists (word m.interp).2)
    (hcall : ∀ call keep, (word m.interp).1 = .ok (.call call keep) →
      P (m.interp.setting.registry.invoke call))
    (h : ∀ items after, (word m.interp).1 = .ok (.walk items after) →
      ∀ t ∈ after, t.Satisfies P T) :
    m.Leaves P T (m.act word) := by
  unfold act
  split
  · next next i hi =>
    rw [hi] at hw hcall h
    have hcall' (call : HostCall) (keep : Bool) (hn : next = .call call keep) :
        P (i.setting.registry.invoke call) := by
      rw [hw.setting]
      exact hcall call keep (by rw [← hn])
    refine Leaves.trans ?_ (follow_leaves (m := { m with interp := i }) hcall'
      fun items after ha => h items after (by rw [← ha]))
    exact .of_eq rfl rfl rfl rfl
  · exact .of_eq rfl rfl rfl rfl

/-- A word leaves no host program to be run. -/
theorem word_satisfies {t : Task} {word : Eval Next} (h : m.word? t = some word) {i : Interp}
    {items : ListId} {after : List Task} (ha : (word i).1 = .ok (.walk items after)) :
    ∀ t ∈ after, t.Satisfies P T := by
  intro u hu
  obtain hu | rfl := word_after h ha u hu
  · exact hu.satisfies
  · trivial

section Hereditary

variable (hP : HostProgram.Hereditary P)

include hP

theorem deliver_leaves (m : Machine) (r : Except EvalError (Option Value)) {reply : Reply}
    (h : reply.Satisfies P T) : m.Leaves P T (m.deliver r reply) := by
  cases reply with
  | toMember site k =>
    obtain ⟨p, hp, hk⟩ := h
    exact m.before_leaves (t := .member site (k r)) (hP.awaits hp hk r)
  | toCaller ticket =>
    have hnew : ∀ a ∈ [(ticket, r)], T a.1 := fun a ha => List.mem_singleton.1 ha ▸ h
    exact ⟨List.suffix_rfl, rfl, ⟨[(ticket, r)], rfl, hnew⟩, [], rfl, by simp⟩

theorem callback_leaves (m : Machine) (c : Callback) (args : Array Value) {reply : Reply}
    (serving : Bool) (h : reply.Satisfies P T) :
    m.Leaves P T (m.callback c args reply serving) := by
  unfold callback
  split
  · have hlast : ∀ t ∈ [Task.callback c.signature.returns m.interp.calls.depth m.serving reply],
        t.Satisfies P T := by
      intro t ht
      obtain rfl := List.mem_singleton.1 ht
      exact h
    refine Leaves.trans ?_ (enter_leaves _ c.body hlast)
    exact .of_eq rfl rfl rfl rfl
  · exact deliver_leaves hP m _ h

theorem serve_leaves (m : Machine) {r : Request} (h : T r.ticket) : m.Leaves P T (m.serve r) :=
  callback_leaves hP m r.callback r.args true h

theorem endCallback_leaves (m : Machine) (depth : Nat) (servingBefore : Bool) {reply : Reply}
    (r : Except EvalError (Option Value)) (h : reply.Satisfies P T) :
    m.Leaves P T (m.endCallback depth servingBefore reply r) := by
  unfold endCallback
  refine Leaves.trans ?_ (deliver_leaves hP _ r h)
  exact .of_eq rfl rfl rfl rfl

theorem callbackFromMember_leaves (m : Machine) (site : CallSite) {c : Callback}
    {args : Array Value} {k : Except CallbackError (Option Value) → HostProgram (Option Value)}
    (h : P (.invoke c args k)) : m.Leaves P T (m.callbackFromMember site c args k) := by
  have refused (e : CallbackError) : m.Leaves P T (m.before (.member site (k (.error e)))) :=
    m.before_leaves (t := .member site (k (.error e))) (hP.invoke h _)
  unfold callbackFromMember
  split
  · exact refused _
  · split
    · exact refused _
    · split
      · exact refused _
      · exact callback_leaves hP m c args true ⟨_, h, rfl⟩

theorem member_leaves (m : Machine) (site : CallSite) {program : HostProgram (Option Value)}
    (h : P program) : m.Leaves P T (m.member site program) := by
  cases program with
  | done r =>
    simp only [member]
    split <;> exact .of_eq rfl rfl rfl rfl
  | fail e => exact .of_eq rfl rfl rfl rfl
  | read k => exact m.before_leaves (t := .member site (k m.interp.store)) (hP.read h _)
  | write f p =>
    refine Leaves.trans ?_ (before_leaves _ (t := .member site p) (hP.write h))
    exact .of_eq rfl rfl rfl rfl
  | call c args k => exact callback_leaves hP m c args _ ⟨_, h, rfl⟩
  | invoke c args k => exact callbackFromMember_leaves hP m site h

variable (hr : m.interp.setting.registry.Satisfies P)

include hr

theorem act_leaves_of_edits {word : Eval Next} (hw : ByEdits word Next.Orderly) :
    m.Leaves P T (m.act word) := by
  refine act_leaves (hw m.interp).1.persists (fun call _ _ => hr.invoke hP.fail call)
    fun items after ha t ht => ?_
  have ho : Next.Orderly (.walk items after) := (hw m.interp).2 _ ha
  exact (ho t ht).satisfies

omit hr in
/-- A request is taken while a task waits. -/
theorem served_leaves {r : Request} {requests : List Request} (hm : m.requests = r :: requests)
    (hT : ∀ r ∈ m.requests, T r.ticket) {t : Task} (h : t.Satisfies P T) :
    m.Leaves P T ({ m with requests }.before t |>.serve r) := by
  have htaken : m.Leaves P T { m with requests } := by
    refine ⟨?_, rfl, .refl _, [], rfl, by simp⟩
    rw [hm]
    exact List.suffix_cons r requests
  have hr : T r.ticket := hT r (by simp [hm])
  exact htaken.trans ((before_leaves { m with requests } h).trans (serve_leaves hP _ hr))

variable (hT : ∀ r ∈ m.requests, T r.ticket)

include hT

/-! ## Steps -/

omit hr in
/-- The programs that a task leaves to be run satisfy `P`, if those of the host calls that it makes
do. -/
theorem perform_leaves_of_calls {t : Task} (h : t.Satisfies P T)
    (hcall : ∀ word call keep, m.word? t = some word → (word m.interp).1 = .ok (.call call keep) →
      P (m.interp.setting.registry.invoke call)) :
    m.Leaves P T (m.perform t) := by
  have hp := m.performs t
  generalize m.perform t = m' at hp ⊢
  cases hp with
  | @word _ word hw =>
    exact act_leaves (word_persists hw _) (fun call keep => hcall word call keep hw)
      fun items after ha => word_satisfies hw ha
  | served hm => exact served_leaves hP hm hT h
  | @breaks v =>
    refine Leaves.trans ?_ ((before_leaves _ (t := .resolve v) trivial).trans (pause_leaves _ _))
    exact .of_eq rfl rfl rfl rfl
  | @next items position v =>
    exact ⟨List.suffix_rfl, rfl, .refl _, [.element v, .walk items (position + 1)], rfl,
      by simp [Task.Satisfies]⟩
  | ended => exact .of_eq rfl rfl rfl rfl
  | left => exact .of_eq rfl rfl rfl rfl
  | answer =>
    refine Leaves.trans ?_ (endCallback_leaves hP _ _ _ _ h)
    exact .of_eq rfl rfl rfl rfl
  | @member site program => exact member_leaves hP m site h

theorem perform_leaves {t : Task} (h : t.Satisfies P T) : m.Leaves P T (m.perform t) :=
  perform_leaves_of_calls hP hT h fun _ call _ _ _ => hr.invoke hP.fail call

omit hr hT in
theorem unwind_leaves (m : Machine) (e : EvalError) {t : Task} (h : t.Satisfies P T) :
    m.Leaves P T (m.unwind e t) := by
  cases t with
  | callback returns depth servingBefore reply =>
    exact endCallback_leaves hP m depth servingBefore (.error e) h
  | leaveScope => exact .of_eq rfl rfl rfl rfl
  | _ => exact .refl m

theorem step_leaves {t : Task} {ts : List Task} (ht : m.tasks = t :: ts)
    (hs : m.status.phase ≠ .waiting) (h : t.Satisfies P T) :
    { m with tasks := ts }.Leaves P T m.step := by
  obtain ⟨e | _, -, hm⟩ := returned_of_phase hs rfl
  · rw [step_of_raising hm ht]
    exact unwind_leaves hP _ e h
  · rw [step_of_proceeding hm ht]
    exact perform_leaves hP (m := { m with tasks := ts }) hr hT h

end Hereditary

/-! ## Moves -/

/-- A step serves who asks, and leaves the observer where it is. -/
theorem step_serves (m : Machine) : m.step.requests <:+ m.requests ∧
    m.step.outbox.listening = m.outbox.listening ∧ m.answers <+: m.step.answers := by
  by_cases hs : m.status.phase = .waiting
  · rw [step_of_waiting hs]
    exact ⟨List.suffix_rfl, rfl, List.prefix_rfl⟩
  · cases ht : m.tasks with
    | nil =>
      rw [step_of_nil ht]
      exact ⟨List.suffix_rfl, rfl, List.prefix_rfl⟩
    | cons t ts =>
      have hall := m.interp.setting.registry.satisfies_true
      have hstep := step_leaves HostProgram.hereditary_true hall (by simp) ht hs t.satisfies_true
      exact ⟨hstep.requests, hstep.listening, hstep.answers.isPrefix⟩

/-- What has been answered stays answered. -/
theorem move_answers (m : Machine) (x : Move) : m.answers <+: (m.move x).answers := by
  cases x with
  | step => exact m.step_serves.2.2
  | resume stepNext => exact List.prefix_rfl
  | request r => exact List.prefix_rfl
  | receive =>
    simp only [move, receive, take]
    split
    · exact List.prefix_rfl
    · split <;> exact List.prefix_rfl
  | dropObserver =>
    simp only [move, dropObserver]
    split <;> exact List.prefix_rfl

section Inherits

variable (hP : HostProgram.Hereditary P)

include hP

theorem Inherits.step (h : m.Inherits P T base) (hn : ∀ r, ¬ m.Returned base r) :
    m.step.Inherits P T base ∧ m.Answers T m.step := by
  obtain ⟨ts, ht, hts⟩ := h.tasks
  by_cases hs : m.status.phase = .waiting
  · rw [step_of_waiting hs]
    exact ⟨h, .refl m⟩
  cases ts with
  | nil =>
    obtain ⟨r, hr⟩ := returned_of_phase hs ht
    exact absurd hr (hn r)
  | cons t ts =>
    obtain ⟨ht', hrest⟩ := List.forall_mem_cons.1 hts
    have hleft := step_leaves hP h.registry h.requests ht hs ht'
    have hkept : m.interp.Persists m.step.interp := m.move_persists .step
    refine ⟨⟨?_, fun r hr => h.requests r (hleft.requests.mem hr), hleft.above rfl hrest⟩,
      hleft.answers⟩
    rw [hkept.setting]
    exact h.registry

/-- A host call that begins is one of a member. -/
theorem Inherits.begins (h : m.Inherits P T base) (site : CallSite) (call : HostCall) :
    ∃ ts, .member site (m.interp.setting.registry.invoke call) :: m.tasks = ts ++ base ∧
      ∀ t ∈ ts, t.Satisfies P T := by
  obtain ⟨ts, ht, hts⟩ := h.tasks
  have hcall : (Task.member site (m.interp.setting.registry.invoke call)).Satisfies P T :=
    h.registry.invoke hP.fail call
  exact ⟨_ :: ts, by rw [ht]; rfl, List.forall_mem_cons.2 ⟨hcall, hts⟩⟩

/-- Until the run has returned to the base, all that is above it satisfies `P` and `T`, if those who
ask do. -/
theorem Inherits.move (h : m.Inherits P T base) (hn : ∀ r, ¬ m.Returned base r) (x : Move)
    (hx : ∀ r, x = .request r → T r.ticket) :
    (m.move x).Inherits P T base ∧ m.Answers T (m.move x) := by
  cases x with
  | step => exact h.step hP hn
  | resume stepNext => exact ⟨⟨h.registry, h.requests, h.tasks⟩, .refl m⟩
  | request r =>
    have hrequests : ∀ r' ∈ m.requests ++ [r], T r'.ticket := fun r' hr' =>
      (List.mem_append.1 hr').elim (h.requests r') fun hr' =>
        List.mem_singleton.1 hr' ▸ hx r rfl
    exact ⟨⟨h.registry, hrequests, h.tasks⟩, .refl m⟩
  | receive =>
    simp only [Machine.move, receive, take]
    split
    · exact ⟨⟨h.registry, h.requests, h.tasks⟩, .refl m⟩
    · split
      · exact ⟨⟨h.registry, h.requests, h.tasks⟩, .refl m⟩
      · exact ⟨⟨h.registry, h.requests, h.begins hP _ _⟩, .refl m⟩
      · exact ⟨h, .refl m⟩
  | dropObserver =>
    simp only [Machine.move, dropObserver]
    split
    · exact ⟨⟨h.registry, h.requests, h.tasks⟩, .refl m⟩
    · exact ⟨⟨h.registry, h.requests, h.begins hP _ _⟩, .refl m⟩
    · exact ⟨⟨h.registry, h.requests, h.tasks⟩, .refl m⟩

/-- What holds of all who ask while a run goes on holds of all who are answered. -/
theorem Run.inherits {m' : Machine} {xs : List Move} (h : Run base m xs m')
    (hi : m.Inherits P T base) (hx : ∀ r, .request r ∈ xs → T r.ticket) :
    m'.Inherits P T base ∧ m.Answers T m' := by
  induction h with
  | refl => exact ⟨hi, .refl m⟩
  | @snoc m₁ xs x hrun hn ih =>
    obtain ⟨hi₁, ha⟩ := ih fun r hr => hx r (List.mem_append_left [x] hr)
    obtain ⟨hi₂, ha'⟩ := hi₁.move hP hn x fun r hr => hx r (by simp [hr])
    exact ⟨hi₂, ha.trans ha'⟩

/-- A word is performed above all that was to be done before. -/
theorem act_inherits (hr : m.interp.setting.registry.Satisfies P)
    (hT : ∀ r ∈ m.requests, T r.ticket) {word : Eval Next} (hw : ByEdits word Next.Orderly) :
    (m.act word).Inherits P T m.tasks ∧ m.Answers T (m.act word) := by
  have hleft : m.Leaves P T (m.act word) := act_leaves_of_edits hP hr hw
  refine ⟨⟨?_, fun r hr => hT r (hleft.requests.mem hr), hleft.tasks⟩, hleft.answers⟩
  rw [(m.act_persists (hw m.interp).1.persists).setting]
  exact hr

end Inherits

end Machine

end WordStack
