import WordStack.Proofs.Announcing

/-!
# Stepping through a run

A debugger who answers each pause with the wish to step is told of every element before it is
processed, once, and of a break once more. The flag that he sets is taken where he comes in, and set
again by the answer to the pause that begins there, so between two pauses it is always set
(`Debugged.gate`). What happens in a run is its `history`: the notices with the element that the
published snapshot shows then, and the elements that are processed. A step settles what it adds to
it (`Debugged.step_accounts`), so a run does.
-/

namespace WordStack

/-- The debugger answers a pause, if he does, with this wish to step, and the observer stays. -/
def Move.ResumesWith (stepNext : Bool) : Move → Prop
  | .resume s => s = stepNext
  | .dropObserver => False
  | _ => True

theorem Move.ResumesWith.steady_or_request {x : Move} {stepNext : Bool}
    (hx : x.ResumesWith stepNext) : x.Steady ∨ ∃ r, x = .request r := by
  cases x with
  | request r => exact .inr ⟨r, rfl⟩
  | dropObserver => exact hx.elim
  | _ => exact .inl trivial

/-! ## Histories -/

/-- What others can tell of a run. -/
inductive Happening where
  /-- The observer is told something; the snapshot that is published then shows the innermost walk
  at the element `cursor`. -/
  | notice (e : Event) (cursor : Option Value)
  /-- An element is processed, outside of callbacks that are served for someone else. It may be a
  break. -/
  | visit (v : Value) (breaks : Bool)

namespace Happening

def event? : Happening → Option Event
  | .notice e _ => some e
  | .visit _ _ => none

def visit? : Happening → Option (Value × Bool)
  | .notice _ _ => none
  | .visit v breaks => some (v, breaks)

/-- It is about a pause or an element, and not about what the program has written. -/
def ofStepping : Happening → Bool
  | .notice e _ => e.isPause
  | .visit _ _ => true

end Happening

/-- What happens with an element: if the debugger steps, he is told of it before it is processed. If
it is a break, he is told of that then. -/
def course (stepNext : Bool) : Value × Bool → List Happening
  | (v, breaks) =>
    (if stepNext then [.notice .stepping (some v)] else []) ++
      .visit v breaks :: (if breaks then [.notice .breaking (some v)] else [])

namespace Machine

/-- The element that the next step processes outside of callbacks that are served for someone
else. -/
def visits? (m : Machine) : Option Value :=
  match m.status, m.tasks with
  | .proceeding, t :: _ => if m.serving then none else (m.word? t).bind fun _ => t.subject?
  | _, _ => none

/-- A visit lets the word of the element act. -/
theorem step_of_visits {m : Machine} {v : Value} (h : m.visits? = some v) :
    m.serving = false ∧ ∃ ts, m.step = { m with tasks := ts }.act (Interp.resolve v) := by
  unfold visits? at h
  split at h
  · next t ts hs ht =>
    simp only [Option.ite_none_left_eq_some, Bool.not_eq_true, Option.bind_eq_some_iff] at h
    obtain ⟨hserving, word, hw, hv⟩ := h
    obtain rfl := word_of_subject hw hv
    exact ⟨hserving, ts, step_of_word hs ht hw⟩
  · cases h

/-- The element that a move processes, and whether it is a break. -/
def visited (m : Machine) : Move → List (Value × Bool)
  | .step => (m.visits?.map fun v => (v, m.interp.breaksAt v)).toList
  | _ => []

/-- What a move adds to what the observer has received and what he has not. -/
def told (m : Machine) (x : Move) : List Event :=
  ((m.notice? x).toList ++ (m.move x).pending).drop m.pending.length

def happenings (m : Machine) (x : Move) : List Happening :=
  ((m.visited x).map fun (v, breaks) => .visit v breaks) ++
    (m.told x).map fun e => .notice e (m.move x).published.cursor?

def history (m : Machine) : List Move → List Happening
  | [] => []
  | x :: xs => m.happenings x ++ (m.move x).history xs

/-- The notice of an element that is yet to be processed, if the debugger steps. -/
def announced (stepNext : Bool) (m : Machine) : List Happening :=
  match m.tasks with
  | .resolve v :: _ => if stepNext then [.notice .stepping (some v)] else []
  | _ => []

section Histories

variable {m m' : Machine} {x : Move} {es : List Event}

theorem history_snoc (m : Machine) (xs : List Move) (x : Move) :
    m.history (xs ++ [x]) = m.history xs ++ (xs.foldl move m).happenings x := by
  induction xs generalizing m with
  | nil => simp [history]
  | cons y xs ih => simp [history, ih]

theorem filterMap_event (m : Machine) (x : Move) :
    (m.happenings x).filterMap Happening.event? = m.told x := by
  simp [happenings, List.filterMap_append, List.filterMap_map, Function.comp_def,
    Happening.event?]

theorem filterMap_visit (m : Machine) (x : Move) :
    (m.happenings x).filterMap Happening.visit? = m.visited x := by
  simp [happenings, List.filterMap_append, List.filterMap_map, Function.comp_def,
    Happening.visit?]

theorem filter_ofStepping (m : Machine) (x : Move) :
    (m.happenings x).filter Happening.ofStepping =
      ((m.visited x).map fun (v, breaks) => .visit v breaks) ++
        ((m.told x).filter Event.isPause).map fun e => .notice e (m.move x).published.cursor? := by
  simp [happenings, List.filter_append, List.filter_map, Function.comp_def, Happening.ofStepping]

theorem told_of_append (h : (m.notice? x).toList ++ (m.move x).pending = m.pending ++ es) :
    m.told x = es := by
  rw [told, h, List.drop_left]

end Histories

variable {old : List Frame} {m m' start : Machine} {xs : List Move}

/-! ## One step -/

/-- A tidy machine in a run where the debugger answers each pause with the same wish. -/
structure Debugged (old : List Frame) (stepNext : Bool) (m : Machine) : Prop where
  tidy : m.Tidy old
  listening : m.outbox.listening = true
  gate : m.gate.paused = true ∨ m.gate.stepNext = stepNext

/-- The move adds to the history what it does with elements: those that have been announced before
and those that it processes take their course, but for what is announced then. -/
def Accounts (stepNext : Bool) (m : Machine) (x : Move) : Prop :=
  m.announced stepNext ++ (m.happenings x).filter Happening.ofStepping =
    (m.visited x).flatMap (course stepNext) ++ (m.move x).announced stepNext

section Announced

variable {stepNext : Bool} {t : Task} {ts : List Task}

theorem announced_of_none (h : ∀ v, .resolve v ∉ m.tasks) : m.announced stepNext = [] := by
  unfold announced
  split
  · next v ts ht => exact absurd (by simp [ht]) (h v)
  · rfl

theorem announced_of_ne (ht : m.tasks = t :: ts) (h : ∀ v, t ≠ .resolve v) :
    m.announced stepNext = [] := by
  unfold announced
  split
  · next v ts' ht' => exact absurd (List.cons.inj (ht.symm.trans ht')).1 (h v)
  · rfl

end Announced

section Steps

variable {stepNext : Bool} {t : Task} {ts : List Task} {v : Value} {word : Eval Next} {x : Move}
  {es : List Event}

theorem told_step (h : m.step.pending = m.pending ++ es) : m.told .step = es := told_of_append h

/-- Nothing is processed and no pause begins. -/
theorem accounts_of_nothing (hv : m.visited x = []) (htold : (m.told x).filter Event.isPause = [])
    (ha : (m.move x).announced stepNext = m.announced stepNext) : m.Accounts stepNext x := by
  simp [Accounts, filter_ofStepping, hv, htold, ha]

theorem accounts_of_quiet (hv : m.visits? = none) (htold : m.TellsNoPause m.step)
    (ha : m.step.announced stepNext = m.announced stepNext) : m.Accounts stepNext .step := by
  obtain ⟨es, hpending, hes⟩ := htold
  refine accounts_of_nothing ?_ ?_ ha
  · rw [visited, hv]
    rfl
  · rw [told_step hpending, hes]

theorem breaksIn_of_word (h : m.word? (.element v) = some word) : m.breaksIn = false := by
  simp only [word?, Option.ite_none_right_eq_some, Bool.and_eq_true, Bool.not_eq_true'] at h
  exact h.1.2

/-- An element is processed outside of callbacks for others where the debugger does not step. -/
theorem stepNext_of_word (h : m.word? (.element v) = some word) (hserving : m.serving = false) :
    m.gate.stepNext = false := by
  simp only [word?, Option.ite_none_right_eq_some, Bool.and_eq_true, Bool.not_eq_true'] at h
  simpa [breaksIn, h.1.1, hserving] using h.1.2

variable (h : m.Debugged old stepNext)

include h

theorem Debugged.awake (hs : m.status.phase ≠ .waiting) : m.Awake := h.tidy.held.awake hs

/-- An error drops the next task, and nothing is told. -/
theorem Debugged.accounts_of_raising {e : EvalError} (hs : m.status = .raising e)
    (ht : m.tasks = t :: ts) : m.Accounts stepNext .step := by
  have hm : m.Awake := h.awake (by simp [hs, Status.phase])
  let n : Machine := { m with tasks := ts }
  have hn : n.Awake := ⟨hm.phase, hm.free⟩
  have hstep : m.step = n.unwind e t := step_of_raising hs ht
  have hnone := h.tidy.next.none (by simp [hs]) hm.not_atPause
  obtain ⟨more, hmore, hsubject⟩ := addsNoElement_unwind (m := n) e t
  refine accounts_of_quiet (by simp [visits?, hs]) ?_ ?_
  · rw [hstep]
    exact tellsNoPause_of_eq ((hn.unwind e t).pending_eq hn)
  · rw [announced_of_none hnone, hstep]
    refine announced_of_none fun v => ?_
    rw [hmore]
    refine not_resolve_of_subject hsubject (fun v hv => hnone v ?_) v
    rw [ht]
    exact List.mem_cons_of_mem t hv

variable (hs : m.status = .proceeding)

include hs

/-- The debugger comes in before the element, and is told of it. -/
theorem Debugged.accounts_of_breaksIn (ht : m.tasks = .element v :: ts) (hb : m.breaksIn = true) :
    m.Accounts stepNext .step := by
  have hm : m.Awake := h.awake (by simp [hs, Status.phase])
  obtain ⟨-, hserving, hflag⟩ := breaksIn_iff.1 hb
  obtain rfl : true = stepNext := by
    rw [← hflag]
    exact h.gate.resolve_left (by simp [hm.free])
  let n := m.interrupted v ts
  have hstep : m.step = n.pause .stepping := step_of_breaksIn hs ht hb
  have htold : m.told .step = [.stepping] := told_step (by
    rw [hstep, ((hm.interrupted v ts).pause_tells hserving h.listening .stepping).2]
    rfl)
  obtain ⟨f, hcurrent, hcursor⟩ := h.tidy.noted.current (by simp [control, hs, Status.phase]) ht
    (v := v) rfl
  have hshown : (m.move .step).published.cursor? = some v := by
    rw [move, hstep, ← hcursor]
    exact (shown_pause (m := n) (by simp [n, interrupted, hserving]) .stepping).cursor hcurrent
  have hvisited : m.visited .step = [] := by simp [visited, visits?, hs, ht, word?, hb]
  have hbefore : m.announced true = [] := announced_of_ne ht (by simp)
  have hafter : (m.move .step).announced true = [.notice .stepping (some v)] := by
    rw [move, hstep, announced, (n.pause_control .stepping).1]
    rfl
  simp [Accounts, filter_ofStepping, hvisited, htold, hshown, hbefore, hafter, Event.isPause]

variable (ht : m.tasks = t :: ts)

include ht

/-- Where the debugger does not come in, a step leaves no element announced. -/
theorem Debugged.announced_step (hb : ∀ v, t = .element v → m.breaksIn = false) :
    m.step.announced stepNext = [] := by
  have hts : ∀ v, .resolve v ∉ ts := fun v => by simpa [ht] using h.tidy.next.behind v
  rw [step_of_proceeding hs ht]
  exact announced_of_none (not_resolve_of_perform (m := { m with tasks := ts }) hb hts)

/-- No word acts. -/
theorem Debugged.accounts_of_silent (hw : m.word? t = none)
    (hb : ∀ v, t = .element v → m.breaksIn = false) : m.Accounts stepNext .step := by
  have hm : m.Awake := h.awake (by simp [hs, Status.phase])
  let n : Machine := { m with tasks := ts }
  have hn : n.Awake := ⟨hm.phase, hm.free⟩
  refine accounts_of_quiet (by simp [visits?, hs, ht, hw]) ?_ ?_
  · rw [step_of_proceeding hs ht]
    exact tellsNoPause_of_eq ((hn.perform_silent hw hb).pending_eq hn)
  · rw [h.announced_step hs ht hb, announced_of_ne ht]
    rintro u rfl
    cases hw

variable (hw : m.word? t = some word)

include hw

theorem Debugged.step_tellsNoPause (hne : (word m.interp).1 ≠ .ok .pause) :
    m.TellsNoPause m.step := by
  have hm : m.Awake := h.awake (by simp [hs, Status.phase])
  rw [step_of_word hs ht hw]
  exact Awake.act_tellsNoPause (m := { m with tasks := ts }) ⟨hm.phase, hm.free⟩ hne

theorem Debugged.word_announced : m.step.announced stepNext = [] := by
  refine h.announced_step hs ht ?_
  rintro u rfl
  exact breaksIn_of_word hw

/-- A word acts that is not that of an element. -/
theorem Debugged.accounts_of_word (hv : t.subject? = none) : m.Accounts stepNext .step := by
  refine accounts_of_quiet (by simp [visits?, hs, ht, hw, hv])
    (h.step_tellsNoPause hs ht hw (word_ne_pause hw hv _)) ?_
  rw [h.word_announced hs ht hw, announced_of_ne ht]
  rintro u rfl
  cases hv

/-- Where a callback is served for someone else, nobody is told of elements and of breaks. -/
theorem Debugged.accounts_of_served (hserving : m.serving = true) (hv : t.subject? = some v) :
    m.Accounts stepNext .step := by
  obtain rfl := word_of_subject hw hv
  refine accounts_of_quiet (by simp [visits?, hs, ht, hserving]) ?_ ?_
  · cases hbreaks : m.interp.breaksAt v with
    | false => exact h.step_tellsNoPause hs ht hw (Interp.resolve_ne_pause hbreaks)
    | true =>
      rw [step_of_word hs ht hw, act_of_breaksAt (m := { m with tasks := ts }) hbreaks, pause,
        if_pos hserving]
      exact tellsNoPause_of_eq rfl
  · rw [h.word_announced hs ht hw, announced_of_ne ht]
    rintro u rfl
    cases hserving.symm.trans (h.tidy.next.next u ts ht).1

/-- Of an element that is processed the debugger has been told before if he steps. -/
theorem Debugged.announced_of_element (hserving : m.serving = false) (hv : t.subject? = some v) :
    m.announced stepNext = if stepNext then [.notice .stepping (some v)] else [] := by
  cases t with
  | element u =>
    have hm : m.Awake := h.awake (by simp [hs, Status.phase])
    obtain rfl : false = stepNext := by
      rw [← stepNext_of_word hw hserving]
      exact h.gate.resolve_left (by simp [hm.free])
    exact announced_of_ne ht (by simp)
  | resolve u =>
    obtain rfl := Option.some.inj hv
    rw [announced, ht]
  | _ => cases hv

/-- Of a break the debugger is told when it is processed, and of nothing else. -/
theorem Debugged.told_of_element (hserving : m.serving = false) (hv : t.subject? = some v) :
    ((m.told .step).filter Event.isPause).map
        (fun e => Happening.notice e (m.move .step).published.cursor?) =
      if m.interp.breaksAt v then [.notice .breaking (some v)] else [] := by
  obtain rfl := word_of_subject hw hv
  have hm : m.Awake := h.awake (by simp [hs, Status.phase])
  let n : Machine := { m with tasks := ts }
  cases hbreaks : m.interp.breaksAt v with
  | false =>
    obtain ⟨es, hpending, hes⟩ := h.step_tellsNoPause hs ht hw (Interp.resolve_ne_pause hbreaks)
    rw [told_step hpending, hes]
    rfl
  | true =>
    have hn : n.Awake := ⟨hm.phase, hm.free⟩
    have hstep : m.step = n.pause .breaking := by
      rw [step_of_word hs ht hw, act_of_breaksAt (m := n) hbreaks]
    have htold : m.told .step = [.breaking] := told_step (by
      rw [hstep, (hn.pause_tells hserving h.listening .breaking).2]
      rfl)
    obtain ⟨f, hcurrent, hcursor⟩ := h.tidy.noted.current (by simp [control, hs, Status.phase]) ht
      hv
    have hshown : (m.move .step).published.cursor? = some v := by
      rw [move, hstep, ← hcursor]
      exact (shown_pause (m := n) (by simp [n, hserving]) .breaking).cursor hcurrent
    simp [htold, hshown, Event.isPause]

/-- The element of which the word acts is processed. -/
theorem Debugged.accounts_of_element (hserving : m.serving = false) (hv : t.subject? = some v) :
    m.Accounts stepNext .step := by
  have hvisited : m.visited .step = [(v, m.interp.breaksAt v)] := by
    simp [visited, visits?, hs, ht, hserving, hw, hv]
  have hafter : (m.move .step).announced stepNext = [] := h.word_announced hs ht hw
  rw [Accounts, filter_ofStepping, h.announced_of_element hs ht hw hserving hv,
    h.told_of_element hs ht hw hserving hv, hvisited, hafter]
  simp [course]

end Steps

theorem Debugged.step_accounts {stepNext : Bool} (h : m.Debugged old stepNext)
    (hn : ∀ r, ¬ m.Returned [] r) : m.Accounts stepNext .step := by
  by_cases hw : m.status.phase = .waiting
  · have hstep : m.step = m := step_of_waiting hw
    refine accounts_of_quiet ?_ (tellsNoPause_of_eq (by rw [hstep])) (by rw [hstep])
    unfold visits?
    split
    · next hs _ => simp [hs, Status.phase] at hw
    · rfl
  cases ht : m.tasks with
  | nil =>
    obtain ⟨r, hr⟩ := returned_of_phase hw ht
    exact absurd hr (hn r)
  | cons t ts =>
    obtain ⟨e | _, -, hs⟩ := returned_of_phase hw rfl
    · exact h.accounts_of_raising hs ht
    by_cases hb : ∃ v, t = .element v ∧ m.breaksIn = true
    · obtain ⟨v, rfl, hb⟩ := hb
      exact h.accounts_of_breaksIn hs ht hb
    have hb : ∀ v, t = .element v → m.breaksIn = false :=
      fun v hv => Bool.eq_false_iff.2 fun hbreaks => hb ⟨v, hv, hbreaks⟩
    cases hword : m.word? t with
    | none => exact h.accounts_of_silent hs ht hword hb
    | some word =>
      cases hv : t.subject? with
      | none => exact h.accounts_of_word hs ht hword hv
      | some v =>
        cases hserving : m.serving with
        | false => exact h.accounts_of_element hs ht hword hserving hv
        | true => exact h.accounts_of_served hs ht hword hserving hv

/-! ## Runs -/

section Runs

variable {stepNext : Bool} {x : Move} {m₁ : Machine} {ys : List Move}

/-- The flag of the debugger is set unless he is at a pause, where the answer sets it. -/
theorem Debugged.step_gate (h : m.Debugged old stepNext) :
    m.step.gate.paused = true ∨ m.step.gate.stepNext = stepNext := by
  by_cases hw : m.status.phase = .waiting
  · rw [step_of_waiting hw]
    exact h.gate
  have hm := h.awake hw
  by_cases hb : ∃ v ts, m.status = .proceeding ∧ m.tasks = .element v :: ts ∧ m.breaksIn = true
  · obtain ⟨v, ts, hs, ht, hb⟩ := hb
    obtain ⟨-, hserving, -⟩ := breaksIn_iff.1 hb
    rw [step_of_breaksIn hs ht hb]
    exact .inl ((hm.interrupted v ts).pause_tells hserving h.listening .stepping).1
  · right
    rw [(hm.step fun v ts hs ht => Bool.eq_false_iff.2 fun hne => hb ⟨v, ts, hs, ht, hne⟩).stepNext]
    exact h.gate.resolve_left (by simp [hm.free])

theorem Debugged.move (h : m.Debugged old stepNext) (hx : x.ResumesWith stepNext)
    (hn : ∀ r, ¬ m.Returned [] r) : (m.move x).Debugged old stepNext where
  tidy := h.tidy.move x hn
  listening := by
    obtain hsteady | ⟨r, rfl⟩ := hx.steady_or_request
    · have hway := (h.tidy.held.move hsteady).way
      rw [← h.listening, ← hway]
    · exact h.listening
  gate := by
    cases x with
    | step => exact h.step_gate
    | request r => exact h.gate
    | resume s => exact .inr hx
    | dropObserver => exact hx.elim
    | receive =>
      have hgate : m.receive.2.gate = m.gate := by
        unfold receive take
        split
        · rfl
        · split <;> rfl
      rw [Machine.move, hgate]
      exact h.gate

theorem Debugged.accounts (h : m.Debugged old stepNext) (hx : x.ResumesWith stepNext)
    (hn : ∀ r, ¬ m.Returned [] r) : m.Accounts stepNext x := by
  cases x with
  | step => exact h.step_accounts hn
  | request r =>
    have htold : m.told (.request r) = [] := told_of_append (by rw [List.append_nil]; rfl)
    exact accounts_of_nothing rfl (by rw [htold]; rfl) rfl
  | resume s =>
    have htold : m.told (.resume s) = [] := told_of_append (by
      rw [List.append_nil]
      exact m.pending_resume s)
    exact accounts_of_nothing rfl (by rw [htold]; rfl) rfl
  | receive =>
    have htold : m.told .receive = [] := told_of_append (by
      rw [List.append_nil]
      exact m.pending_receive)
    refine accounts_of_nothing rfl (by rw [htold]; rfl) ?_
    simp only [Machine.move, receive, take]
    split
    · rfl
    · split
      · rfl
      · next site call hs =>
        rw [announced_of_none (h.tidy.next.none_of_job hs)]
        rfl
      · rfl
  | dropObserver => exact hx.elim

/-- What has been told is what has been received since, and what has not. -/
theorem Debugged.told_append (h : m.Debugged old stepNext) (hx : x.ResumesWith stepNext) :
    (m.notice? x).toList ++ (m.move x).pending = m.pending ++ m.told x := by
  obtain hsteady | ⟨r, rfl⟩ := hx.steady_or_request
  · obtain ⟨es, -, hes⟩ := (h.tidy.held.move hsteady).pending
    rw [told_of_append hes, hes]
  · have hsame : (m.notice? (.request r)).toList ++ (m.move (.request r)).pending =
        m.pending ++ [] := by
      rw [List.append_nil]
      rfl
    rw [told_of_append hsame, hsame]

/-- Along a run the debugger's machine stays one, and the histories of the moves add up. -/
theorem Run.debugged (h : Run [] m xs m') (hm : m.Debugged old stepNext)
    (hx : ∀ x ∈ xs, x.ResumesWith stepNext) :
    m'.Debugged old stepNext ∧
      m.heard xs ++ m'.pending = m.pending ++ (m.history xs).filterMap Happening.event? ∧
      m.announced stepNext ++ (m.history xs).filter Happening.ofStepping =
        ((m.history xs).filterMap Happening.visit?).flatMap (course stepNext) ++
          m'.announced stepNext := by
  induction h with
  | refl => exact ⟨hm, by simp [heard, history], by simp [history]⟩
  | @snoc m₁ xs x hrun hn ih =>
    obtain ⟨hd, hheard, hhistory⟩ := ih fun y hy => hx y (by simp [hy])
    have hlast := hx x (by simp)
    have haccounts := hd.accounts hlast hn
    rw [Accounts, ← filterMap_visit] at haccounts
    refine ⟨hd.move hlast hn, ?_, ?_⟩
    · rw [hrun.heard_snoc, history_snoc, ← hrun.eq_foldl, List.filterMap_append, filterMap_event,
        List.append_assoc, hd.told_append hlast, ← List.append_assoc, hheard, List.append_assoc]
    · rw [history_snoc, ← hrun.eq_foldl, List.filter_append, ← List.append_assoc, hhistory,
        List.append_assoc, haccounts, List.filterMap_append, List.flatMap_append, List.append_assoc]

/-- From a pause on each pause is answered with the same wish to step. What the observer is told
from there on, received or not, is in the history; and there each element that is processed outside
of callbacks for others takes its course, one after the other: with the wish to step it has been
announced before, by a notice with a snapshot that shows it as the innermost element, and without it
there is no such notice; where it is a break there is one more notice, and at no other place. Of the
element that the first pause has announced the notice came before, and that of the last one may have
come while the element is still to be processed. -/
theorem elements_take_their_course (hstart : m.Starts start) (ht : m.tasks = [])
    (hs : m.status = .proceeding) (hg : m.gate.paused = false) (hy : Run [] start ys m₁)
    (hpaused : m₁.gate.paused = true) (hl : m₁.outbox.listening = true) (h : Run [] m₁ xs m')
    (hx : ∀ x ∈ xs, x.ResumesWith stepNext) :
    m₁.heard xs ++ m'.pending = m₁.pending ++ (m₁.history xs).filterMap Happening.event? ∧
      m₁.announced stepNext ++ (m₁.history xs).filter Happening.ofStepping =
        ((m₁.history xs).filterMap Happening.visit?).flatMap (course stepNext) ++
          m'.announced stepNext :=
  (h.debugged ⟨hy.tidy (hstart.tidy ht hs hg), hl, .inl hpaused⟩ hx).2

/-- A machine whose procedure `f` breaks twice. -/
def breakingTwice : Machine :=
  withProcedure [.pause] #[.symbol "break", .integer 1, .symbol "break"] .observer

theorem elements_take_their_course_of_breakingTwice : ∃ m₁ xs m',
    Run [] (breakingTwice.act (Interp.walkValue (.symbol "f") [])) (.replicate 4 .step) m₁ ∧
      m₁.AtPause ∧ Run [] m₁ xs m' ∧ m'.outcome?.isSome = true ∧
      m₁.heard xs = m₁.pending ++ (m₁.history xs).filterMap Happening.event? ∧
      ((m₁.history xs).filterMap Happening.visit?).map (·.2) = [false, true] ∧
      (m₁.history xs).filter Happening.ofStepping =
        ((m₁.history xs).filterMap Happening.visit?).flatMap (course true) := by
  let m₁ := (List.replicate 4 Move.step).foldl move
    (breakingTwice.act (Interp.walkValue (.symbol "f") []))
  let xs : List Move := [.resume true, .receive, .step, .step, .resume true, .receive, .step, .step,
    .step, .resume true, .receive, .step, .resume true, .receive, .step, .step, .step]
  have hy : Run [] (breakingTwice.act (Interp.walkValue (.symbol "f") [])) (.replicate 4 .step)
      m₁ := run_of_stopsInTime (by decide +kernel)
  have hrun : Run [] m₁ xs (xs.foldl move m₁) := run_of_stopsInTime (by decide +kernel)
  have hx : ∀ x ∈ xs, x.ResumesWith true := by simp [xs, Move.ResumesWith]
  obtain ⟨hheard, hhistory⟩ := elements_take_their_course (m := breakingTwice)
    (.value (.symbol "f")) rfl rfl rfl hy (by decide +kernel) (by decide +kernel) hrun hx
  have hreceived : (xs.foldl move m₁).pending = [] := List.isEmpty_iff.1 (by decide +kernel)
  have hover : (xs.foldl move m₁).tasks = [] := List.isEmpty_iff.1 (by decide +kernel)
  have hfirst : m₁.announced true = [] := rfl
  have hlast : (xs.foldl move m₁).announced true = [] := by rw [announced, hover]
  rw [hreceived, List.append_nil] at hheard
  rw [hfirst, hlast, List.append_nil, List.nil_append] at hhistory
  exact ⟨m₁, xs, _, hy, .inr ⟨.breaking, rfl⟩, hrun, by decide +kernel, hheard, by decide +kernel,
    hhistory⟩

end Runs

end Machine

end WordStack
