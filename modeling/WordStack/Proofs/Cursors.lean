import WordStack.Proofs.Breaks
import WordStack.Proofs.Frames

/-!
# The element that is next

A walk puts the element to which it comes in front of itself, and its frame notes it. There the
element stays until it is processed: the callbacks that are served before it begin walks of their
own in front of it, and where the debugger comes in it only becomes one that has been announced. So
a task that is to process an element has the walk of the element behind it, with its frame at the
element (`Noted`), and where the task is next that frame is the innermost one (`Noted.current`).
-/

namespace WordStack

/-! ## What a task leaves -/

/-- What stands in the place of a task once it has been performed: tasks that process no element,
with the task itself behind them where someone else was served first; the element, announced by the
debugger if he comes in; or the element to which a walk has come. -/
inductive Task.Becomes (breaksIn : Bool) : Task → List Task → Prop where
  | plain {t : Task} {more : List Task} : (∀ u ∈ more, u.subject? = none) → Becomes breaksIn t more
  | kept {t : Task} {more : List Task} : (∀ v, t ≠ .resolve v) →
      (∀ u ∈ more, u.subject? = none) → Becomes breaksIn t (more ++ [t])
  | announced (v : Value) : breaksIn = true → Becomes breaksIn (.element v) [.resolve v]
  | begun (items : ListId) (position : Nat) (v : Value) :
      Becomes breaksIn (.walk items position) [.element v, .walk items (position + 1)]

/-- The tasks after a move: some that process no element are put in front, or the next task has been
performed. -/
inductive Succeeds : List Task → List Task → Prop where
  | added {ts more : List Task} : (∀ u ∈ more, u.subject? = none) → Succeeds ts (more ++ ts)
  | performed {t : Task} {ts more : List Task} (breaksIn : Bool) : t.Becomes breaksIn more →
      Succeeds (t :: ts) (more ++ ts)

theorem Succeeds.refl (ts : List Task) : Succeeds ts ts := .added (by simp : ∀ u ∈ [], _)

/-- A task for an element is not among those that process none. -/
theorem subject_behind {more ts us vs : List Task} {t : Task} {v : Value}
    (hmore : ∀ u ∈ more, u.subject? = none) (ht : t.subject? = some v)
    (h : more ++ ts = us ++ t :: vs) : ∃ us', us = more ++ us' ∧ ts = us' ++ t :: vs := by
  obtain ⟨us', rfl, hts⟩ | ⟨_ | ⟨u, us'⟩, rfl, hts⟩ := List.append_eq_append_iff.1 h
  · exact ⟨us', rfl, hts⟩
  · exact ⟨[], by simp, by simpa using hts.symm⟩
  · obtain ⟨rfl, -⟩ := List.cons.inj hts
    exact absurd (hmore t (by simp)) (by simp [ht])

/-- Where a task for an element is after a move, there was one for the element before, or the walk
has just come to it. -/
theorem Succeeds.subject {ts us vs : List Task} {t : Task} {v : Value}
    (h : Succeeds ts (us ++ t :: vs)) (ht : t.subject? = some v) :
    (∃ us₀ t₀, ts = us₀ ++ t₀ :: vs ∧ t₀.subject? = some v) ∨
      us = [] ∧ t = .element v ∧ ∃ items p ws, vs = .walk items (p + 1) :: ws ∧
        ts = .walk items p :: ws := by
  generalize hts' : us ++ t :: vs = ts' at h
  cases h with
  | added hmore =>
    obtain ⟨us', -, rfl⟩ := subject_behind hmore ht hts'.symm
    exact .inl ⟨us', t, rfl, ht⟩
  | @performed t₀ ts more b hbecomes =>
    -- a task that is behind the one that has been performed
    have behind (us' : List Task) (hus : ts = us' ++ t :: vs) :
        ∃ us₀ t₁, t₀ :: ts = us₀ ++ t₁ :: vs ∧ t₁.subject? = some v :=
      ⟨t₀ :: us', t, by rw [hus]; rfl, ht⟩
    cases hbecomes with
    | plain hmore =>
      obtain ⟨us', -, hus⟩ := subject_behind hmore ht hts'.symm
      exact .inl (behind us' hus)
    | kept _ hmore =>
      rw [List.append_assoc] at hts'
      obtain ⟨us', -, hus⟩ := subject_behind hmore ht hts'.symm
      exact .inl ⟨us', t, hus, ht⟩
    | announced u _ =>
      cases us with
      | nil =>
        obtain ⟨rfl, rfl⟩ := List.cons.inj hts'
        exact .inl ⟨[], .element u, rfl, ht⟩
      | cons u' us => exact .inl (behind us (List.cons.inj hts').2.symm)
    | begun items p u =>
      rcases us with _ | ⟨u₁, _ | ⟨u₂, us⟩⟩
      · obtain ⟨rfl, rfl⟩ := List.cons.inj hts'
        obtain rfl := Option.some.inj ht
        exact .inr ⟨rfl, rfl, items, p, ts, rfl, rfl⟩
      · obtain ⟨-, hts'⟩ := List.cons.inj hts'
        obtain ⟨rfl, -⟩ := List.cons.inj hts'
        cases ht
      · obtain ⟨-, hts'⟩ := List.cons.inj hts'
        exact .inl (behind us (List.cons.inj hts').2.symm)

namespace Machine

variable {m m₁ m' : Machine} {t : Task}

/-- In front of the tasks of `m`, `m'` has none that processes an element. -/
def AddsNoElement (m m' : Machine) : Prop :=
  ∃ more, m'.tasks = more ++ m.tasks ∧ ∀ u ∈ more, u.subject? = none

theorem addsNoElement_of_eq (h : m'.tasks = m.tasks) : m.AddsNoElement m' :=
  ⟨[], h, by simp⟩

theorem addsNoElement_before (ht : t.subject? = none) : m.AddsNoElement (m.before t) :=
  ⟨[t], rfl, by simpa using ht⟩

theorem addsNoElement_enter (items : ListId) {after : List Task}
    (h : ∀ u ∈ after, u.subject? = none) : m.AddsNoElement (m.enter items after) := by
  unfold enter
  rcases m.interp.calls.push items (m.interp.putWords.depth - 1) with ⟨e | _, calls⟩
  · exact ⟨after, rfl, h⟩
  · exact ⟨.walk items 0 :: after, rfl, List.forall_mem_cons.2 ⟨rfl, h⟩⟩

theorem addsNoElement_act {word : Eval Next} (hw : m.word? t = some word) :
    m₁.AddsNoElement (m₁.act word) := by
  unfold act
  split
  · next next i hi =>
    cases next with
    | done => exact addsNoElement_of_eq rfl
    | walk items after =>
      refine addsNoElement_enter (m := { m₁ with interp := i }) items fun u hu => ?_
      obtain hu | rfl := word_after hw (i := m₁.interp) (by rw [hi]) u hu
      · cases u <;> first | rfl | exact hu.elim
      · rfl
    | pause => exact addsNoElement_of_eq (pause_control _ _).1
    | write channel message => exact addsNoElement_of_eq (notify_control _ _).1
    | call call keep =>
      unfold follow marshal
      dsimp only
      split
      · exact addsNoElement_of_eq rfl
      · exact addsNoElement_before rfl
  · exact addsNoElement_of_eq rfl

theorem addsNoElement_deliver (r : Except EvalError (Option Value)) (reply : Reply) :
    m.AddsNoElement (m.deliver r reply) := by
  cases reply with
  | toMember site k => exact addsNoElement_before rfl
  | toCaller ticket => exact addsNoElement_of_eq rfl

theorem addsNoElement_callback (c : Callback) (args : Array Value) (reply : Reply)
    (serving : Bool) : m.AddsNoElement (m.callback c args reply serving) := by
  unfold callback
  split
  · exact addsNoElement_enter (m := { m with
      interp := { m.interp with stack := ⟨m.interp.stack.values ++ args⟩ }, serving }) c.body
      (by simp [Task.subject?])
  · exact addsNoElement_deliver _ reply

theorem addsNoElement_member (site : CallSite) (program : HostProgram (Option Value)) :
    m.AddsNoElement (m.member site program) := by
  cases program with
  | done r =>
    simp only [member]
    split <;> exact addsNoElement_of_eq rfl
  | fail e => exact addsNoElement_of_eq rfl
  | read k => exact addsNoElement_before rfl
  | write f k => exact ⟨[.member site k], rfl, by simp [Task.subject?]⟩
  | call c args k => exact addsNoElement_callback _ _ _ _
  | invoke c args k =>
    simp only [member, callbackFromMember]
    split
    · exact addsNoElement_before rfl
    · split
      · exact addsNoElement_before rfl
      · split
        · exact addsNoElement_before rfl
        · exact addsNoElement_callback _ _ _ _

theorem addsNoElement_unwind (e : EvalError) (t : Task) : m.AddsNoElement (m.unwind e t) := by
  unfold unwind
  split
  · exact addsNoElement_of_eq rfl
  · exact addsNoElement_deliver _ _
  · exact addsNoElement_of_eq rfl

/-- What a task leaves in its place. -/
theorem perform_becomes (m : Machine) (t : Task) :
    ∃ more, (m.perform t).tasks = more ++ m.tasks ∧ t.Becomes m.breaksIn more := by
  have plain {m' : Machine} (h : m.AddsNoElement m') :
      ∃ more, m'.tasks = more ++ m.tasks ∧ t.Becomes m.breaksIn more := by
    obtain ⟨more, hm, hmore⟩ := h
    exact ⟨more, hm, .plain hmore⟩
  by_cases ht : ∃ v, t = .resolve v
  · obtain ⟨v, rfl⟩ := ht
    exact plain (addsNoElement_act (m := m) (t := .resolve v) rfl)
  have hp := m.performs t
  generalize m.perform t = m' at hp ⊢
  cases hp with
  | word hw => exact plain (addsNoElement_act hw)
  | @served _ r requests =>
    obtain ⟨more, hm, hmore⟩ := addsNoElement_callback (m := { m with requests }.before t)
      r.callback r.args (.toCaller r.ticket) true
    exact ⟨more ++ [t], by simpa [serve, before] using hm, .kept (fun v hv => ht ⟨v, hv⟩) hmore⟩
  | @breaks v hb => exact ⟨[.resolve v], (pause_control _ _).1, .announced v hb⟩
  | @next items position v => exact ⟨_, rfl, .begun items position v⟩
  | ended => exact plain (addsNoElement_of_eq rfl)
  | left => exact plain (addsNoElement_of_eq rfl)
  | answer => exact plain (addsNoElement_deliver _ _)
  | @member site program => exact plain (addsNoElement_member site program)

theorem step_succeeds (m : Machine) : Succeeds m.tasks m.step.tasks := by
  by_cases hs : m.status.phase = .waiting
  · rw [step_of_waiting hs]
    exact .refl _
  cases ht : m.tasks with
  | nil =>
    rw [step_of_nil ht, ht]
    exact .refl _
  | cons t ts =>
    obtain ⟨e | _, -, hs⟩ := returned_of_phase hs rfl
    · obtain ⟨more, hm, hmore⟩ := addsNoElement_unwind (m := { m with tasks := ts }) e t
      rw [step_of_raising hs ht, hm]
      exact .performed false (.plain hmore)
    · obtain ⟨more, hm, hmore⟩ := perform_becomes { m with tasks := ts } t
      rw [step_of_proceeding hs ht, hm]
      exact .performed _ hmore

/-- What is not a step puts no element in front. -/
theorem addsNoElement_move (m : Machine) {x : Move} (hx : x ≠ .step) :
    m.AddsNoElement (m.move x) := by
  cases x with
  | step => exact absurd rfl hx
  | request r => exact addsNoElement_of_eq rfl
  | resume stepNext => exact addsNoElement_of_eq rfl
  | receive =>
    simp only [move, receive, take]
    split
    · exact addsNoElement_of_eq rfl
    · split
      · exact addsNoElement_of_eq rfl
      · exact addsNoElement_before rfl
      · exact addsNoElement_of_eq rfl
  | dropObserver =>
    simp only [move, dropObserver]
    split
    · exact addsNoElement_of_eq rfl
    · exact addsNoElement_before rfl
    · exact addsNoElement_of_eq rfl

theorem move_succeeds (m : Machine) (x : Move) : Succeeds m.tasks (m.move x).tasks := by
  by_cases hx : x = .step
  · subst hx
    exact m.step_succeeds
  · obtain ⟨more, hmore, hnone⟩ := addsNoElement_move m hx
    rw [hmore]
    exact .added hnone

end Machine

/-! ## Frames at their elements -/

/-- Behind each task that is to process an element is a walk, and its frame, above the frames `old`,
is at the element. -/
structure Noted (old : List Frame) (k : Control) : Prop where
  framed : k.Framed old
  cursors : ∀ us t vs v, k.tasks = us ++ t :: vs → t.subject? = some v →
    ∃ items p ws f, vs = .walk items p :: ws ∧
      k.calls.frames.toList[old.length + (walked ws).length]? = some f ∧ f.cursor = some v

variable {old : List Frame} {k k' : Control}

/-- Where no element is next, none is to be noted. -/
theorem Control.Framed.noted (h : k.Framed old) (hk : ∀ t ∈ k.tasks, t.subject? = none) :
    Noted old k where
  framed := h
  cursors us t vs v ht hv := by
    have hnone := hk t (by simp [ht])
    cases hnone.symm.trans hv

/-- The frame of a walk that has just come to an element is at it. -/
theorem Control.Brings.cursor {us ws : List Task} {t : Task} {items : ListId} {v : Value}
    (h : Control.Brings old k (us ++ [t]) items ws) (hv : t.subject? = some v) :
    ∃ f, k.calls.frames.toList[old.length + (walked ws).length]? = some f ∧ f.cursor = some v := by
  obtain ⟨x, f, hus, -, hcurrent, -, hx, hdepth⟩ := h
  have hlast := congrArg List.getLast? hus
  obtain rfl : t = .element x := by simpa using hlast
  obtain rfl := Option.some.inj hv
  refine ⟨f, ?_, hx⟩
  rwa [CallStack.current?_of_depth hdepth, ← Array.getElem?_toList] at hcurrent

theorem Control.Keeps.getElem? {ws : List Task} {items : ListId} {p : Nat}
    (h : Control.Keeps old k k' items p ws) :
    k'.calls.frames.toList[old.length + (walked ws).length]? =
      k.calls.frames.toList[old.length + (walked ws).length]? := by
  obtain ⟨-, -, -, hframes⟩ := h
  have hlt : old.length + (walked ws).length < old.length + (walked ws).length + 1 := by omega
  rw [← List.getElem?_take_of_lt hlt, hframes, List.getElem?_take_of_lt hlt]

theorem Noted.change (h : Noted old k) (hc : k.Change k') (ht : Succeeds k.tasks k'.tasks) :
    Noted old k' where
  framed := hc.framed h.framed
  cursors us t vs v hk' hv := by
    rw [hk'] at ht
    -- a walk that is behind a task is at the element that it was at, or it has come to the next one
    have hat {items : ListId} {p : Nat} {ws : List Task} (hvs : vs = .walk items p :: ws) :
        Control.Keeps old k k' items p ws ∨ Control.Brings old k' (us ++ [t]) items ws :=
      hc.keeps_or_brings h.framed (by rw [hk', hvs, List.append_cons]) (.inl (by simp))
    obtain ⟨us₀, t₀, hk, hv₀⟩ | ⟨rfl, rfl, items, p, ws, rfl, hk⟩ := ht.subject hv
    · obtain ⟨items, p, ws, f, rfl, hf, hcursor⟩ := h.cursors us₀ t₀ vs v hk hv₀
      refine ⟨items, p, ws, ?_⟩
      obtain hkeeps | hbrings := hat rfl
      · exact ⟨f, rfl, hkeeps.getElem?.trans hf, hcursor⟩
      · obtain ⟨f, hf, hcursor⟩ := hbrings.cursor hv
        exact ⟨f, rfl, hf, hcursor⟩
    · refine ⟨items, p + 1, ws, ?_⟩
      obtain ⟨us₀, hus₀, -⟩ | hbrings := hat rfl
      · rw [hk] at hus₀
        have hlength := congrArg List.length hus₀
        obtain rfl : us₀ = [] := by
          simp only [List.length_cons, List.length_append] at hlength
          exact List.length_eq_zero_iff.1 (by omega)
        simp at hus₀
      · obtain ⟨f, hf, hcursor⟩ := hbrings.cursor hv
        exact ⟨f, rfl, hf, hcursor⟩

/-- Where a task for an element is next, the innermost frame is at the element. -/
theorem Noted.current {t : Task} {ts : List Task} {v : Value} (h : Noted old k)
    (hp : ∀ e, k.phase ≠ .raising e) (ht : k.tasks = t :: ts) (hv : t.subject? = some v) :
    ∃ f, k.calls.current? = some f ∧ f.cursor = some v := by
  obtain ⟨items, p, ws, f, rfl, hf, hcursor⟩ := h.cursors [] t ts v ht hv
  refine ⟨f, ?_, hcursor⟩
  obtain ⟨inner, hframes, hitems⟩ := h.framed.exact hp
  have hdepth := Control.depth_of_exact hframes hitems
  have hwalked : walked k.tasks = items :: walked ws := by
    rw [ht]
    cases t with
    | element | resolve => rfl
    | _ => cases hv
  rw [hwalked, List.length_cons] at hdepth
  rw [CallStack.current?_of_depth hdepth, ← Array.getElem?_toList]
  exact hf

namespace Machine

variable {m m' : Machine} {xs : List Move}

theorem noted_move (h : Noted old (m.control m.tasks)) (x : Move) (hn : ∀ r, ¬ m.Returned [] r) :
    Noted old ((m.move x).control (m.move x).tasks) := by
  obtain ⟨ts, ht, hc⟩ : Changed [] (m.control m.tasks) (m.move x) :=
    move_change x (List.append_nil _).symm hn
  rw [List.append_nil] at ht
  rw [ht]
  refine h.change hc ?_
  rw [control_tasks, control_tasks, ← ht]
  exact m.move_succeeds x

theorem Run.noted (h : Run [] m xs m') (hm : Noted old (m.control m.tasks)) :
    Noted old (m'.control m'.tasks) :=
  h.induct (P := fun m => Noted old (m.control m.tasks)) hm fun _ x h₁ hn => noted_move h₁ x hn

end Machine

end WordStack
