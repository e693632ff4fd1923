import WordStack.Proofs.Cursors
import WordStack.Proofs.Failures

/-!
# Walks of lists that grow

A walk reads the element at its position when it comes to it, from the list as it is then, and the
list may have been added to meanwhile: by its own elements, by what they call, by other walks of the
same list, or by callbacks. A step takes the element in front of a walk and processes it, or leaves
it there while someone else is served (`step_turns`). So what a walk has processed is the list up to
its position, less the element that is pending in front of it, as long as the list is only added to
at its end (`Walking`, `Walking.move`). A walk that ends well has come to the end of the list as it
is then (`live_walk_exact`).
-/

namespace WordStack

/-- The element that the last of the tasks is to process. -/
def pending? (ts : List Task) : Option Value := ts.getLast?.bind Task.subject?

theorem pending?_of_none {ts : List Task} (h : ∀ u ∈ ts, u.subject? = none) :
    pending? ts = none := by
  unfold pending?
  cases hlast : ts.getLast? with
  | none => rfl
  | some u => exact h u (List.mem_of_getLast? hlast)

@[simp] theorem pending?_append_singleton (ts : List Task) (u : Task) :
    pending? (ts ++ [u]) = u.subject? := by
  simp [pending?]

theorem pending?_append {ts : List Task} (more : List Task) (h : ts ≠ []) :
    pending? (more ++ ts) = pending? ts := by
  rw [pending?, pending?, List.getLast?_append, List.getLast?_eq_some_getLast h]
  rfl

theorem pending?_cons {ts : List Task} (u : Task) (h : ts ≠ []) :
    pending? (u :: ts) = pending? ts :=
  pending?_append [u] h

namespace Machine

variable {m m' : Machine} {x : Move} {l : ListId} {base : List Task}

/-! ## The elements of one walk -/

/-- The element that the next step processes. -/
def processes? (m : Machine) : Option Value :=
  match m.status, m.tasks with
  | .proceeding, t :: _ => (m.word? t).bind fun _ => t.subject?
  | _, _ => none

/-- The element that a move processes for the walk that has `height` tasks below it. -/
def turn (height : Nat) (m : Machine) : Move → Option Value
  | .step => if m.tasks.length = height + 2 then m.processes? else none
  | _ => none

/-- The elements that a row of moves processes for that walk, in their order. -/
def processed (height : Nat) (m : Machine) : List Move → List Value
  | [] => []
  | x :: xs => (m.turn height x).toList ++ (m.move x).processed height xs

theorem processed_append (height : Nat) (m : Machine) (xs ys : List Move) :
    m.processed height (xs ++ ys) =
      m.processed height xs ++ (xs.foldl move m).processed height ys := by
  induction xs generalizing m with
  | nil => rfl
  | cons x xs ih => simp [processed, ih]

/-- Each move leaves the list as it is, or adds to its end. -/
def Appends (l : ListId) (m : Machine) : List Move → Prop
  | [] => True
  | x :: xs =>
    (m.interp.store.items l).toList <+: ((m.move x).interp.store.items l).toList ∧
      Appends l (m.move x) xs

theorem appends_append (m : Machine) (xs ys : List Move) :
    Appends l m (xs ++ ys) ↔ Appends l m xs ∧ Appends l (xs.foldl move m) ys := by
  induction xs generalizing m with
  | nil => simp [Appends]
  | cons x xs ih => simp [Appends, ih, and_assoc]

/-! ## One move -/

theorem processes?_of_proceeding {u : Task} {ts : List Task} (hs : m.status = .proceeding)
    (ht : m.tasks = u :: ts) : m.processes? = (m.word? u).bind fun _ => u.subject? := by
  simp only [processes?, hs, ht]

theorem processes?_of_not_proceeding (hs : m.status ≠ .proceeding) : m.processes? = none := by
  unfold processes?
  split
  · next h _ => exact absurd h hs
  · rfl

/-- Before an element is processed whoever asks is served, or the debugger comes in; the element is
still to be processed then. -/
theorem perform_element {v : Value} (hw : m.word? (.element v) = none) :
    ∃ more, (m.perform (.element v)).tasks = more ++ m.tasks ∧ pending? more = some v := by
  rw [perform]
  cases hr : m.requests with
  | cons r requests =>
    obtain ⟨more, hmore, -⟩ := addsNoElement_callback (m := { m with requests }.before (.element v))
      r.callback r.args (.toCaller r.ticket) true
    refine ⟨more ++ [.element v], ?_, by simp [Task.subject?]⟩
    rw [element_of_request v hr, serve, hmore]
    simp [before]
  | nil =>
    have hb : m.breaksIn = true := by simpa [word?, hr] using hw
    refine ⟨[.resolve v], ?_, rfl⟩
    rw [element_of_breaksIn v hb, (pause_control _ _).1]
    rfl

/-- What a task has to do with an element is done when it is performed, or left to be done. -/
theorem perform_turns (m : Machine) (u : Task) : ∃ more, (m.perform u).tasks = more ++ m.tasks ∧
    ((m.word? u).bind fun _ => u.subject?).toList ++ (pending? more).toList =
      u.subject?.toList := by
  cases hu : u.subject? with
  | none =>
    obtain ⟨more, hmore, hbecomes⟩ := m.perform_becomes u
    have hnone : pending? more = none := by
      cases hbecomes with
      | plain hsubject => exact pending?_of_none hsubject
      | kept _ hsubject => simpa using hu
      | announced => cases hu
      | begun => rfl
    exact ⟨more, hmore, by simp [hnone]⟩
  | some v =>
    cases hw : m.word? u with
    | some word =>
      have hact : m.AddsNoElement (m.act word) := addsNoElement_act hw
      obtain ⟨more, hmore, hsubject⟩ := hact
      refine ⟨more, ?_, by simp [pending?_of_none hsubject]⟩
      rw [perform_of_word hw]
      exact hmore
    | none =>
      cases u with
      | element w =>
        obtain rfl := Option.some.inj hu
        obtain ⟨more, hmore, hpending⟩ := perform_element hw
        exact ⟨more, hmore, by simp [hpending]⟩
      | resolve w => cases hw
      | _ => cases hu

/-- An error leaves nothing to be done with an element, and goes on. -/
theorem unwind_turns (m : Machine) (e : EvalError) (u : Task) :
    ∃ more, (m.unwind e u).tasks = more ++ m.tasks ∧
      ((pending? more).toList = u.subject?.toList ∨
        more = [] ∧ (m.unwind e u).status = m.status) := by
  cases u with
  | element v | resolve v => exact ⟨[], rfl, .inr ⟨rfl, rfl⟩⟩
  | _ =>
    obtain ⟨more, hmore, hsubject⟩ := addsNoElement_unwind (m := m) e _
    exact ⟨more, hmore, .inl (by rw [pending?_of_none hsubject]; rfl)⟩

/-- A step does what the next task has to do with an element, or leaves it to be done, unless an
error drops the task. -/
theorem step_turns {u : Task} {rest : List Task} (hs : m.status.phase ≠ .waiting)
    (ht : m.tasks = u :: rest) : ∃ more, m.step.tasks = more ++ rest ∧
      (m.processes?.toList ++ (pending? more).toList = u.subject?.toList ∨
        more = [] ∧ ∃ e, m.step.status = .raising e) := by
  obtain ⟨e | _, -, hs⟩ := returned_of_phase hs rfl
  · obtain ⟨more, hmore, hturn⟩ := unwind_turns { m with tasks := rest } e u
    have hnone : m.processes? = none := processes?_of_not_proceeding (by simp [hs, Status.ofResult])
    rw [step_of_raising hs ht, hnone]
    exact ⟨more, hmore, hturn.imp id fun h => ⟨h.1, e, h.2.trans hs⟩⟩
  · obtain ⟨more, hmore, hturn⟩ := perform_turns { m with tasks := rest } u
    rw [step_of_proceeding hs ht, processes?_of_proceeding hs ht]
    exact ⟨more, hmore, .inl hturn⟩

/-- Only a step raises an error. -/
theorem raising_of_move {e : EvalError} (hx : x ≠ .step) (h : (m.move x).status = .raising e) :
    m.status = .raising e := by
  cases x with
  | step => exact absurd rfl hx
  | request r => exact h
  | resume stepNext =>
    simp only [move, resume] at h
    split at h
    · cases h
    · exact h
  | receive =>
    simp only [move, receive, take] at h
    split at h
    · exact h
    · split at h
      · dsimp only at h
        split at h <;> cases h
      · cases h
      · exact h
  | dropObserver =>
    simp only [move, dropObserver] at h
    split at h
    · cases h
    · cases h
    · exact h

/-! ## How far a walk has come -/

/-- The walk of the list right above the base has processed the elements `done`, or it has failed.
In front of its position is the element that it has come to, until that is processed. -/
inductive Walking (l : ListId) (base : List Task) (done : List Value) (m : Machine) : Prop where
  | within {ts : List Task} {p : Nat} : m.tasks = ts ++ .walk l p :: base →
      p ≤ (m.interp.store.items l).size →
      done ++ (pending? ts).toList = (m.interp.store.items l).toList.take p →
      (ts = [] → ∀ e, m.status ≠ .raising e) → Walking l base done m
  | ended : m.Returned base (.ok ()) → done = (m.interp.store.items l).toList →
      Walking l base done m
  | failing {p : Nat} {e : EvalError} : m.tasks = .walk l p :: base → m.status = .raising e →
      Walking l base done m
  | failed {e : EvalError} : m.Returned base (.error e) → Walking l base done m

variable {done : List Value} {ts : List Task} {p : Nat}

/-- A walk that is not next goes on, unless an error has come to it. -/
theorem walking_of_tasks (ht : m.tasks = ts ++ .walk l p :: base)
    (hp : p ≤ (m.interp.store.items l).size)
    (hdone : done ++ (pending? ts).toList = (m.interp.store.items l).toList.take p) :
    Walking l base done m := by
  by_cases h : ts = [] ∧ ∃ e, m.status = .raising e
  · obtain ⟨rfl, e, he⟩ := h
    exact .failing ht he
  · exact .within ht hp hdone fun hnil e he => h ⟨hnil, e, he⟩

theorem take_of_isPrefix {α : Type} {xs ys : List α} (h : xs <+: ys) {n : Nat}
    (hn : n ≤ xs.length) : ys.take n = xs.take n := by
  obtain ⟨zs, rfl⟩ := h
  rw [List.take_append_of_le_length hn]

/-- The walk is next: it reads the element at its position as the list is now, or ends. -/
theorem Walking.walk_step (hs : m.status = .proceeding) (ht : m.tasks = .walk l p :: base)
    (hdone : done = (m.interp.store.items l).toList.take p) : Walking l base done m.step := by
  have hperform := step_of_proceeding hs ht
  cases hv : (m.interp.store.items l)[p]? with
  | some v =>
    have hlist : (m.interp.store.items l).toList[p]? = some v := by simpa using hv
    have hlt : p < (m.interp.store.items l).size := (Array.getElem?_eq_some_iff.1 hv).1
    simp only [perform, hv] at hperform
    have htasks : m.step.tasks = [.element v] ++ .walk l (p + 1) :: base := by rw [hperform]; rfl
    have hstore : m.step.interp.store = m.interp.store := by rw [hperform]
    have hpending : pending? [.element v] = some v := rfl
    refine walking_of_tasks htasks (hstore ▸ hlt) ?_
    rw [hstore, hpending, hdone, List.take_add_one, hlist]
  | none =>
    have hge : (m.interp.store.items l).size ≤ p := by simpa using hv
    simp only [perform, hv] at hperform
    rw [hperform]
    refine .ended ⟨rfl, hs⟩ ?_
    rw [hdone, List.take_of_length_le (by simpa using hge)]

/-- A step in front of the walk. -/
theorem Walking.step_above {u : Task} (hs : m.status.phase ≠ .waiting)
    (ht : m.tasks = u :: ts ++ .walk l p :: base) (hp : p ≤ (m.interp.store.items l).size)
    (hdone : done ++ (pending? (u :: ts)).toList = (m.interp.store.items l).toList.take p)
    (hstore : (m.interp.store.items l).toList <+: (m.step.interp.store.items l).toList) :
    Walking l base (done ++ (m.turn base.length .step).toList) m.step := by
  have ht' : m.tasks = u :: (ts ++ .walk l p :: base) := ht
  obtain ⟨more, hmore, hturn⟩ := step_turns hs ht'
  have hp' : p ≤ (m.step.interp.store.items l).size :=
    Nat.le_trans hp (by simpa using hstore.length_le)
  rw [← take_of_isPrefix hstore (by simpa using hp)] at hdone
  by_cases hts : ts = []
  · subst hts
    have hheight : m.turn base.length .step = m.processes? := by
      simp [turn, ht]
    rw [hheight]
    obtain hdo | ⟨rfl, e, he⟩ := hturn
    · refine walking_of_tasks hmore hp' ?_
      rw [List.append_assoc, hdo]
      exact hdone
    · exact .failing hmore he
  · have hnone : m.turn base.length .step = none := by
      have hlength : ts.length ≠ 0 := fun h => hts (List.length_eq_zero_iff.1 h)
      have hheight : m.tasks.length ≠ base.length + 2 := by
        rw [ht]
        simp only [List.length_append, List.length_cons]
        omega
      simp [turn, hheight]
    rw [hnone]
    have htasks : m.step.tasks = more ++ ts ++ .walk l p :: base := by
      rw [hmore, List.append_assoc]
    refine walking_of_tasks htasks hp' ?_
    rw [pending?_append more hts, ← pending?_cons u hts]
    simpa using hdone

/-- A move takes the walk on by the element that it processes. -/
theorem Walking.move (h : Walking l base done m) (hn : ∀ r, ¬ m.Returned base r)
    (hstore : (m.interp.store.items l).toList <+: ((m.move x).interp.store.items l).toList) :
    Walking l base (done ++ (m.turn base.length x).toList) (m.move x) := by
  cases h with
  | ended hr => exact absurd hr (hn _)
  | failed hr => exact absurd hr (hn _)
  | @failing p e ht he =>
    by_cases hx : x = .step
    · subst hx
      rw [Machine.move, step_of_raising he ht]
      exact .failed ⟨rfl, he⟩
    · have hw : m.status.phase ≠ .waiting := by simp [he, Status.phase]
      obtain ⟨htasks, hstatus, -⟩ := move_of_not_waiting hw hx
      exact .failing (htasks.trans ht) (hstatus.trans he)
  | @within ts p ht hp hdone hok =>
    by_cases hx : x = .step
    · subst hx
      by_cases hw : m.status.phase = .waiting
      · have hnone : m.turn base.length .step = none := by
          have hs : m.status ≠ .proceeding := fun h => by simp [h, Status.phase] at hw
          simp [turn, processes?_of_not_proceeding hs]
        rw [Machine.move, step_of_waiting hw, hnone]
        exact .within ht hp (by simpa using hdone) hok
      · cases ts with
        | cons u ts => exact Walking.step_above hw ht hp hdone hstore
        | nil =>
          have hs : m.status = .proceeding := by
            obtain ⟨e | _, -, hs⟩ := returned_of_phase hw rfl
            · exact absurd hs (hok rfl e)
            · exact hs
          have hnone : m.turn base.length .step = none := by simp [turn, ht]
          rw [hnone]
          exact Walking.walk_step hs ht (by simpa [pending?] using hdone)
    · have hnone : m.turn base.length x = none := by cases x <;> first | rfl | exact absurd rfl hx
      obtain ⟨more, hmore, hsubject⟩ := addsNoElement_move m hx
      have hpending : pending? (more ++ ts) = pending? ts := by
        by_cases hts : ts = []
        · rw [hts, List.append_nil, pending?_of_none hsubject]
          rfl
        · exact pending?_append more hts
      rw [hnone]
      have htasks : (m.move x).tasks = more ++ ts ++ .walk l p :: base := by
        rw [hmore, ht, List.append_assoc]
      refine .within htasks (Nat.le_trans hp (by simpa using hstore.length_le)) ?_
        fun hnil e he => ?_
      · rw [hpending, take_of_isPrefix hstore (by simpa using hp)]
        simpa using hdone
      · exact hok (List.append_eq_nil_iff.1 hnil).2 e (raising_of_move hx he)

/-! ## Runs -/

theorem Run.walking {xs : List Move} (h : Run base m xs m') (hm : Walking l base done m)
    (hx : Appends l m xs) : Walking l base (done ++ m.processed base.length xs) m' := by
  induction h with
  | refl => simpa [processed] using hm
  | @snoc m₁ xs x hrun hn ih =>
    obtain ⟨hxs, hlast⟩ := (appends_append _ xs [x]).1 hx
    rw [← hrun.eq_foldl] at hlast
    have hmove := (ih hxs).move hn hlast.1
    rw [processed_append, ← hrun.eq_foldl]
    simpa [processed] using hmove

/-- A walk that begins has processed nothing, or it is refused. -/
theorem walking_enter (hm : m.status = .proceeding) (l : ListId) (after : List Task) :
    Walking l (after ++ m.tasks) [] (m.enter l after) := by
  unfold enter
  rcases m.interp.calls.push l (m.interp.putWords.depth - 1) with ⟨e | _, calls⟩
  · exact .failed ⟨rfl, rfl⟩
  · refine .within (List.nil_append _).symm (Nat.zero_le _) rfl fun _ e he => ?_
    cases hm.symm.trans he

/-- A walk that has come to its end well has processed the list. -/
theorem Walking.finished (h : Walking l base done m) (hr : m.Returned base (.ok ())) :
    done = (m.interp.store.items l).toList := by
  cases h with
  | ended _ hdone => exact hdone
  | failed he => cases he.2.symm.trans hr.2
  | failing _ he => cases he.symm.trans hr.2
  | within ht _ _ _ =>
    have hlength := congrArg List.length (hr.1.symm.trans ht)
    simp only [List.length_append, List.length_cons] at hlength
    omega

/-! ## Each element in its turn -/

/-- An error that has come to a walk is the result of it. -/
theorem Run.fails {xs : List Move} {e : EvalError} (h : Run base m xs m')
    (ht : m.tasks = .walk l p :: base) (hs : m.status = .raising e) :
    ¬ m'.Returned base (.ok ()) := by
  have hraising : m'.status = .raising e ∧ (m'.tasks = .walk l p :: base ∨ m'.tasks = base) := by
    refine h.induct (P := fun n => n.status = .raising e ∧
      (n.tasks = .walk l p :: base ∨ n.tasks = base)) ⟨hs, .inl ht⟩ fun n x ⟨hs, ht⟩ hn => ?_
    have ht : n.tasks = .walk l p :: base := ht.resolve_right fun h =>
      hn (.error e) ⟨h, hs⟩
    by_cases hx : x = .step
    · subst hx
      rw [Machine.move, step_of_raising hs ht]
      exact ⟨hs, .inr rfl⟩
    · have hw : n.status.phase ≠ .waiting := by simp [hs, Status.phase]
      obtain ⟨htasks, hstatus, -⟩ := move_of_not_waiting hw hx
      exact ⟨hstatus.trans hs, .inl (htasks.trans ht)⟩
  intro hr
  cases hraising.1.symm.trans hr.2

/-- The machine is at the element at the next position, and the step lets the word of it act before
the walk goes on. -/
theorem Walking.turn_eq {v : Value} (h : Walking l base done m)
    (hv : m.turn base.length .step = some v) :
    m.status = .proceeding ∧ (m.interp.store.items l)[done.length]? = some v ∧
      m.step = { m with tasks := .walk l (done.length + 1) :: base }.act (Interp.resolve v) ∧
      ∃ more, m.step.tasks = more ++ .walk l (done.length + 1) :: base := by
  simp only [turn, Option.ite_none_right_eq_some] at hv
  obtain ⟨hheight, hv⟩ := hv
  have hs : m.status = .proceeding := by
    by_cases hs : m.status = .proceeding
    · exact hs
    · cases (processes?_of_not_proceeding hs).symm.trans hv
  cases h with
  | ended hr => simp [hr.1] at hheight
  | failed hr => cases hs.symm.trans hr.2
  | failing _ he => cases hs.symm.trans he
  | @within ts p ht hp hdone _ =>
    obtain ⟨u, rfl⟩ : ∃ u, ts = [u] := by
      rw [← List.length_eq_one_iff]
      have hlength := congrArg List.length ht
      simp only [List.length_append, List.length_cons] at hlength
      omega
    rw [processes?_of_proceeding hs ht, Option.bind_eq_some_iff] at hv
    obtain ⟨word, hw, hu⟩ := hv
    obtain rfl := word_of_subject hw hu
    have hpending : pending? [u] = some v := hu
    rw [hpending] at hdone
    have hp' : p = done.length + 1 := by
      have hlength := congrArg List.length hdone
      simp only [List.length_append, List.length_take, Option.toList_some, List.length_singleton,
        Array.length_toList] at hlength
      omega
    subst hp'
    have hstep := step_of_word hs ht hw
    let here : Machine := { m with tasks := .walk l (done.length + 1) :: base }
    have hact : here.AddsNoElement (here.act (Interp.resolve v)) := addsNoElement_act hw
    obtain ⟨more, hmore, -⟩ := hact
    refine ⟨hs, ?_, hstep, more, ?_⟩
    · have hat := congrArg (·[done.length]?) hdone
      simpa using hat.symm
    · rw [hstep]
      exact hmore

/-- Between two elements the walk has processed as many as its position says. -/
theorem Walking.length_eq (h : Walking l base done m)
    (hr : m.Returned (.walk l p :: base) (.ok ())) : done.length = p := by
  cases h with
  | ended hr' =>
    have hlength := congrArg List.length (hr.1.symm.trans hr'.1)
    simp at hlength
  | failed hr' => cases hr.2.symm.trans hr'.2
  | failing _ he => cases hr.2.symm.trans he
  | @within ts p' ht hp hdone _ =>
    obtain rfl : ts = [] := by
      have hlength := congrArg List.length (hr.1.symm.trans ht)
      simp only [List.length_append, List.length_cons] at hlength
      exact List.length_eq_zero_iff.1 (by omega)
    obtain ⟨rfl, -⟩ : p = p' ∧ True := by
      have htasks := hr.1.symm.trans ht
      simpa using htasks
    have hlength := congrArg List.length hdone
    simp only [pending?, List.getLast?_nil, Option.bind_none, Option.toList_none, List.append_nil,
      List.length_take, Array.length_toList] at hlength
    omega

/-- The element at a turn of the walk is processed to its end before the walk goes on, and the rest
of the run begins with what that has left. -/
theorem Run.element_completes {v : Value} {ys zs : List Move}
    (h : Run base m (ys ++ .step :: zs) m') (hr : m'.Returned base (.ok ()))
    (hm : Walking l base [] m) (hx : Appends l m (ys ++ .step :: zs))
    (hv : (ys.foldl move m).turn base.length .step = some v) :
    let n := ys.foldl move m
    let index := (m.processed base.length ys).length
    let here : Machine := { n with tasks := .walk l (index + 1) :: base }
    (n.interp.store.items l)[index]? = some v ∧ n.step = here.act (Interp.resolve v) ∧
      ∃ us ws m₁, zs = us ++ ws ∧ here.Completes (Interp.resolve v) us (.ok ()) m₁ ∧
        n.step.processed base.length us = [] ∧ Run base m₁ ws m' := by
  intro n index here
  obtain ⟨hbefore, hafter⟩ := h.split
  obtain ⟨hxbefore, hxafter⟩ := (appends_append m ys (.step :: zs)).1 hx
  have hat : Walking l base (m.processed base.length ys) n := hbefore.walking hm hxbefore
  obtain ⟨hs, hitem, hstep, more, hmore⟩ := hat.turn_eq hv
  refine ⟨hitem, hstep, ?_⟩
  have hnext : Run base n ([.step] ++ zs) m' := hafter
  obtain ⟨us, ws, m₁, r₁, rfl, hus, hr₁, hws⟩ :=
    hnext.split.2.returns [.walk l (index + 1)] hr hmore (by simp)
  obtain rfl : r₁ = .ok () := by
    cases r₁ with
    | ok u => rfl
    | error e => exact absurd hr (hws.fails hr₁.1 hr₁.2)
  refine ⟨us, ws, m₁, rfl, ⟨hs, hstep ▸ hus, hr₁⟩, ?_, hws⟩
  -- as many elements as the walk has come to have been processed, and this one is the last of them
  have hall : ys ++ .step :: (us ++ ws) = (ys ++ .step :: us) ++ ws := by simp
  rw [hall] at h hx
  have hwalked := h.split.1.walking hm ((appends_append m _ ws).1 hx).1
  have hm₁ : (ys ++ .step :: us).foldl move m = m₁ := by
    rw [List.foldl_append, List.foldl_cons, hus.eq_foldl]
    rfl
  rw [hm₁] at hwalked
  have hcount := hwalked.length_eq hr₁
  have hturn : n.turn base.length .step = some v := hv
  have hsum : m.processed base.length (ys ++ .step :: us) =
      m.processed base.length ys ++ v :: n.step.processed base.length us := by
    rw [processed_append, processed, hturn]
    rfl
  rw [List.nil_append, hsum, List.length_append, List.length_cons] at hcount
  exact List.length_eq_zero_iff.1 (by omega)

/-- Whatever becomes of a list while it is walked, if it is only added to at its end: a walk that
ends well has processed the elements that the list has then, each of them once and in their order.
An element is read from the list as it is when its turn comes; it is processed to its end, and the
walk goes on with what that has left. So a list that nobody changes is processed as it is
written. -/
theorem live_walk_exact (after : List Task) {xs : List Move} (hm : m.status = .proceeding)
    (h : Run (after ++ m.tasks) (m.enter l after) xs m')
    (hr : m'.Returned (after ++ m.tasks) (.ok ())) (hx : Appends l (m.enter l after) xs) :
    let base := after ++ m.tasks
    let start := m.enter l after
    start.processed base.length xs = (m'.interp.store.items l).toList ∧
    (∀ ys zs v, xs = ys ++ .step :: zs →
      (ys.foldl move start).turn base.length .step = some v →
      let n := ys.foldl move start
      let index := (start.processed base.length ys).length
      let here : Machine := { n with tasks := .walk l (index + 1) :: base }
      (n.interp.store.items l)[index]? = some v ∧ n.step = here.act (Interp.resolve v) ∧
        ∃ us ws m₁, zs = us ++ ws ∧ here.Completes (Interp.resolve v) us (.ok ()) m₁ ∧
          n.step.processed base.length us = [] ∧ Run base m₁ ws m') ∧
    (Throughout (fun n => n.interp.store.items l = m.interp.store.items l) start xs →
      start.processed base.length xs = (m.interp.store.items l).toList) := by
  intro base start
  have hstart : Walking l base [] start := walking_enter hm l after
  have hall : start.processed base.length xs = (m'.interp.store.items l).toList := by
    have hdone := (h.walking hstart hx).finished hr
    rwa [List.nil_append] at hdone
  refine ⟨hall, fun ys zs v hxs hv => ?_, fun hsame => ?_⟩
  · subst hxs
    exact h.element_completes hr hstart hx hv
  · rw [hall, h.eq_foldl, hsame.finish]

/-- The values are the same number, text, symbol or list. -/
def sameValue : Value → Value → Bool
  | .integer a, .integer b => a == b
  | .text a, .text b => a == b
  | .symbol a, .symbol b => a == b
  | .list a, .list b => a == b
  | _, _ => false

theorem eq_of_sameValue {v w : Value} (h : sameValue v w = true) : v = w := by
  unfold sameValue at h
  split at h
  · rw [eq_of_beq h]
  · rw [eq_of_beq h]
  · rw [eq_of_beq h]
  · rw [eq_of_beq h]
  · cases h

def extendsWith : List Value → List Value → Bool
  | [], _ => true
  | v :: vs, w :: ws => sameValue v w && extendsWith vs ws
  | _ :: _, [] => false

theorem isPrefix_of_extendsWith {vs ws : List Value} (h : extendsWith vs ws = true) :
    vs <+: ws := by
  induction vs generalizing ws with
  | nil => exact List.nil_prefix
  | cons v vs ih =>
    cases ws with
    | nil => cases h
    | cons w ws =>
      obtain ⟨hv, hvs⟩ := Bool.and_eq_true_iff.1 h
      exact List.cons_prefix_cons.2 ⟨eq_of_sameValue hv, ih hvs⟩

/-- A check of `Appends`, for lists of numbers, texts, symbols and lists. -/
def checkAppends (l : ListId) (m : Machine) : List Move → Bool
  | [] => true
  | x :: xs =>
    extendsWith (m.interp.store.items l).toList ((m.move x).interp.store.items l).toList &&
      checkAppends l (m.move x) xs

theorem appends_of_check {xs : List Move} (h : checkAppends l m xs = true) : Appends l m xs := by
  induction xs generalizing m with
  | nil => trivial
  | cons x xs ih =>
    obtain ⟨hx, hxs⟩ := Bool.and_eq_true_iff.1 h
    exact ⟨isPrefix_of_extendsWith hx, ih hxs⟩

/-- A program that adds a number to itself. -/
def selfAppending : Machine :=
  let m := withProcedure [.execute] #[.integer 7] .inline
  let program := #[.list ⟨3⟩, .list ⟨0⟩, .text "Add", .symbol "execute"]
  { m with interp := { m.interp with store := m.interp.store.addList program } }

/-- Four elements are written and five processed, the last of them the number. -/
theorem live_walk_exact_of_selfAppending : ∃ m',
    (selfAppending.interp.store.items ⟨3⟩).size = 4 ∧ selfAppending.status = .proceeding ∧
      Run [] (selfAppending.enter ⟨3⟩ []) (.replicate 18 .step) m' ∧ m'.Returned [] (.ok ()) ∧
      Appends ⟨3⟩ (selfAppending.enter ⟨3⟩ []) (.replicate 18 .step) ∧
      (selfAppending.enter ⟨3⟩ []).processed 0 (.replicate 18 .step) =
        (m'.interp.store.items ⟨3⟩).toList ∧
      (m'.interp.store.items ⟨3⟩).size = 5 := by
  have hrun : Run [] (selfAppending.enter ⟨3⟩ []) (.replicate 18 .step) _ :=
    run_of_stopsInTime (by decide +kernel)
  have hends : ((List.replicate 18 Move.step).foldl move
      (selfAppending.enter ⟨3⟩ [])).outcome?.any Except.toBool = true := by decide +kernel
  obtain ⟨r, hr, hok⟩ := (Option.any_eq_true _ _).1 hends
  obtain rfl : r = .ok () := by
    cases r with
    | ok u => rfl
    | error e => cases hok
  have hx : Appends ⟨3⟩ (selfAppending.enter ⟨3⟩ []) (.replicate 18 .step) :=
    appends_of_check (by decide +kernel)
  have hexact := live_walk_exact (m := selfAppending) [] rfl hrun (returned_of_outcome hr) hx
  exact ⟨_, by decide +kernel, rfl, hrun, returned_of_outcome hr, hx, hexact.1, by decide +kernel⟩

end Machine

end WordStack
