import WordStack.Proofs.Muted
import WordStack.Session

/-!
# Where host calls run changes nothing

A run, muted, is a run by steps alone, and an evaluation begins with the same muted machine in
either mode. So there is one muted run for both, and what the modes share at their ends is what is
left of its end: the result, the interpreter, and the notices but for those about pauses. The other
way round, an observer who answers can follow the muted run to its end, so the modes end together.
-/

namespace WordStack

namespace Machine

/-! ## Runs -/

variable {m m' : Machine} {xs : List Move}

/-- A steady run, muted, is a run by steps alone. -/
theorem Run.muted (h : Run [] m xs m') (hx : ∀ x ∈ xs, x.Steady) (ha : m.Attended) :
    m'.Attended ∧ ∃ n, m'.muted (m.heard xs) = (m.muted []).run n := by
  induction h with
  | refl => exact ⟨ha, 0, rfl⟩
  | @snoc m₁ xs x hrun _ ih =>
    have hx' : x.Steady := hx x (by simp)
    obtain ⟨ha₁, n, hn⟩ := ih fun y hy => hx y (by simp [hy])
    refine ⟨ha₁.move hx', ?_⟩
    rw [hrun.heard_snoc]
    obtain hm | hm := muted_move ha₁ (m.heard xs) hx'
    · exact ⟨n, hm.trans hn⟩
    · exact ⟨n + 1, by rw [hm, hn, run_succ]⟩

theorem waits_muted {told : List Event} {r : Except EvalError Unit} (h : m.Returned [] r) :
    (m.muted told).waits = true := by
  have hs : m.status.phase ≠ .waiting := Returned.phase h
  have ht := muted_tasks told hs
  rw [h.1, List.map_nil] at ht
  unfold waits
  rw [ht]
  split <;> first | rfl | contradiction

/-- What runs that have come to the same muted machine have in common. -/
theorem eq_of_muted_eq {m₁ m₂ : Machine} {told₁ told₂ : List Event} {r₁ r₂ : Except EvalError Unit}
    (h : m₁.muted told₁ = m₂.muted told₂) (h₁ : m₁.Returned [] r₁) (h₂ : m₂.Returned [] r₂) :
    r₁ = r₂ ∧ m₁.interp = m₂.interp ∧ m₁.answers = m₂.answers ∧
      apartFromPauses (told₁ ++ m₁.pending) = apartFromPauses (told₂ ++ m₂.pending) := by
  have hs : (m₁.muted told₁).status = (m₂.muted told₂).status := congrArg Machine.status h
  have hi : (m₁.muted told₁).interp = (m₂.muted told₂).interp := congrArg Machine.interp h
  have ha : (m₁.muted told₁).answers = (m₂.muted told₂).answers := congrArg Machine.answers h
  have hq : (m₁.muted told₁).outbox.queued = (m₂.muted told₂).outbox.queued :=
    congrArg (fun m => m.outbox.queued) h
  simp only [Machine.muted, Returned.answered_eq h₁, Returned.answered_eq h₂] at hs hi ha hq
  rw [h₁.2, h₂.2] at hs
  refine ⟨?_, hi, ha, by simpa using congrArg Array.toList hq⟩
  cases r₁ <;> cases r₂ <;> simp_all [Status.ofResult]

/-! ## An observer who answers -/

/-- What the observer does to the machine is nothing to the muted one. -/
theorem muted_answers (hx : ∀ x ∈ xs, x = .receive ∨ x = .resume false) (told : List Event)
    (m : Machine) : (xs.foldl move m).muted (told ++ m.heard xs) = m.muted told := by
  induction xs generalizing told m with
  | nil => simp [heard]
  | cons x xs ih =>
    have ih := ih (fun y hy => hx y (by simp [hy])) (told ++ (m.notice? x).toList) (m.move x)
    rw [heard, List.foldl_cons, ← List.append_assoc, ih]
    obtain rfl | rfl := hx x (by simp)
    · exact muted_receive told m
    · have hn : told ++ (m.notice? (.resume false)).toList = told := List.append_nil told
      rw [hn]
      exact muted_resume told m false

/-- An observer who receives comes to what the machine offers. -/
theorem receives_offer (q : List Event) {m : Machine} {o : Offer} (hq : m.outbox.queued = q.toArray)
    (hs : m.status = .offering o) (hg : m.gate = {}) :
    ∃ xs m', (∀ x ∈ xs, x = Move.receive) ∧ Run [] m xs m' ∧ m'.status.phase ≠ .waiting ∧
      m'.gate = {} := by
  induction q generalizing m with
  | nil =>
    have hn : ∀ r, ¬ m.Returned [] r := fun r hr => Returned.phase hr (by rw [hs, Status.phase])
    refine ⟨[.receive], m.move .receive, by simp, .snoc .receive (.refl m) hn, ?_⟩
    obtain ⟨_, _, status, _, gate, ⟨_, _, queued⟩, _, _, _, _⟩ := m
    obtain rfl : queued = #[] := hq
    obtain rfl : status = .offering o := hs
    obtain rfl : gate = {} := hg
    cases o with
    | event e pauses => cases pauses <;> exact ⟨by simp [move, receive, take, Status.phase], rfl⟩
    | job site call => exact ⟨by simp [move, receive, take, before, Status.phase], rfl⟩
  | cons e q ih =>
    have hn : ∀ r, ¬ m.Returned [] r := fun r hr => Returned.phase hr (by rw [hs, Status.phase])
    have hm : m.move .receive = { m with outbox := { m.outbox with queued := q.toArray } } := by
      simp [move, receive, hq, Array.eraseIdxIfInBounds]
    have hstep : Run [] m [.receive] (m.move .receive) := .snoc .receive (.refl m) hn
    obtain ⟨xs, m', hxs, hrun, hend⟩ := ih (m := m.move .receive) (by rw [hm]) (by rw [hm, hs])
      (by rw [hm, hg])
    exact ⟨.receive :: xs, m', by simpa using hxs, hstep.trans hrun, hend⟩

/-- An observer who answers lets a machine go on, without the debugger. -/
theorem answers_waiting (m : Machine) (hn : ∀ r, ¬ m.Returned [] r) :
    ∃ xs m', (∀ x ∈ xs, x = Move.receive ∨ x = .resume false) ∧ Run [] m xs m' ∧
      m'.status.phase ≠ .waiting ∧ m'.gate = {} := by
  have hrun : Run [] m [.resume false] (m.move (.resume false)) := .snoc _ (.refl m) hn
  rcases hs : (m.move (.resume false)).status with _ | e | _ | o
  · exact ⟨_, _, by simp, hrun, by rw [hs]; simp [Status.phase], rfl⟩
  · exact ⟨_, _, by simp, hrun, by rw [hs]; simp [Status.phase], rfl⟩
  · exfalso
    simp only [move, resume] at hs
    split at hs
    · cases hs
    · next hne => exact hne hs
  · obtain ⟨xs, m', hxs, hrun', hend⟩ :=
      receives_offer (m.move (.resume false)).outbox.queued.toList (by simp) hs rfl
    refine ⟨.resume false :: xs, m', ?_, hrun.trans hrun', hend⟩
    intro x hx
    rcases List.mem_cons.1 hx with rfl | hx
    · exact .inr rfl
    · exact .inl (hxs x hx)

theorem steady_of_answers {x : Move} (h : x = .receive ∨ x = .resume false) : x.Steady := by
  obtain rfl | rfl := h <;> trivial

/-- An observer who answers brings a machine that is not over to its next step, where the muted
machine has been all along. -/
theorem ready_of_answers {m : Machine} (h : m.Attended) (told : List Event)
    (hn : ∀ r, ¬ m.Returned [] r) :
    ∃ xs m₁, (∀ x ∈ xs, x.Steady) ∧ Run [] m xs m₁ ∧ m₁.Attended ∧
      m₁.muted (told ++ m.heard xs) = m.muted told ∧ m₁.status.phase ≠ .waiting ∧
      m₁.gate = {} := by
  obtain ⟨xs, m₁, hxs, hrun, hs, hg⟩ := answers_waiting m hn
  have hsteady (x : Move) (hx : x ∈ xs) : x.Steady := steady_of_answers (hxs x hx)
  have hm := muted_answers hxs told m
  rw [← hrun.eq_foldl] at hm
  exact ⟨xs, m₁, hsteady, hrun, (hrun.muted hsteady h).1, hm, hs, hg⟩

/-- The machine's tasks come to an end where an observer attends to it. -/
def Finishes (m : Machine) : Prop :=
  ∃ xs m' r, (∀ x ∈ xs, x.Steady) ∧ Run [] m xs m' ∧ m'.Returned [] r

theorem Returned.finishes {r : Except EvalError Unit} (h : m.Returned [] r) : m.Finishes :=
  ⟨[], m, r, by simp, .refl m, h⟩

theorem Run.finishes (h : Run [] m xs m') (hx : ∀ x ∈ xs, x.Steady) (hm : m'.Finishes) :
    m.Finishes := by
  obtain ⟨ys, m₁, r, hys, hrun, hr⟩ := hm
  refine ⟨xs ++ ys, m₁, r, fun x hmem => ?_, h.trans hrun, hr⟩
  exact (List.mem_append.1 hmem).elim (hx x) (hys x)

/-- Where the muted machine comes to an end, an observer who answers brings the machine to its. -/
theorem finishes_of_muted (n : Nat) {m : Machine} {told : List Event} (h : m.Attended)
    (he : ((m.muted told).run n).tasks = []) : m.Finishes := by
  induction n generalizing m told with
  | zero =>
    by_cases hn : ∃ r, m.Returned [] r
    · obtain ⟨r, hr⟩ := hn
      exact Returned.finishes hr
    obtain ⟨xs, m₁, hxs, hrun, -, hm, hs, -⟩ := ready_of_answers h told fun r hr => hn ⟨r, hr⟩
    have ht : m₁.tasks.map Task.muted = [] := by
      rw [← muted_tasks _ hs, hm]
      exact he
    obtain ⟨r, hr⟩ := returned_of_phase hs (List.map_eq_nil_iff.1 ht)
    exact hrun.finishes hxs (Returned.finishes hr)
  | succ n ih =>
    by_cases hn : ∃ r, m.Returned [] r
    · obtain ⟨r, hr⟩ := hn
      exact Returned.finishes hr
    obtain ⟨xs, m₁, hxs, hrun, h₁, hm, hs, hg⟩ :=
      ready_of_answers h told fun r hr => hn ⟨r, hr⟩
    by_cases hn₁ : ∃ r, m₁.Returned [] r
    · obtain ⟨r, hr⟩ := hn₁
      exact hrun.finishes hxs (Returned.finishes hr)
    have hstep := muted_step (told ++ m.heard xs) h₁ hs fun _ _ _ _ => by simp [breaksIn, hg]
    rw [hm] at hstep
    rw [← run_step, ← hstep] at he
    have hone : Run [] m₁ [.step] m₁.step := .snoc .step (.refl m₁) fun r hr => hn₁ ⟨r, hr⟩
    exact hrun.finishes hxs (hone.finishes (by simp [Move.Steady]) (ih h₁.step he))

end Machine

/-! ## Notices about the end -/

namespace Session

/-- The notices that the observer has not received yet. -/
def undelivered (s : Session) : List Event := s.machine.pending ++ s.parting

/-- The notice that a run is over, if there is one. -/
def farewell (run : RunInProgress) (r : Except EvalError Unit) : List Event :=
  if run.evaluates || !r.isOk then
    [.terminating (match r with
      | .ok () => none
      | .error e => some e)]
  else []

/-- A run that is over gives notice of it after all its other notices, in either mode. -/
theorem undelivered_finish {s : Session} {r : Except EvalError Unit} (fuel : Nat)
    (run : RunInProgress) (hr : s.machine.Returned [] r) (hq : s.machine.requests = [])
    (hl : s.machine.outbox.listening = true) (hp : s.parting = []) :
    (s.finish fuel run r).undelivered = s.machine.pending ++ farewell run r := by
  obtain ⟨_, m, _, _, parting, _, _, _, _⟩ := s
  obtain ⟨_, _, status, serving, _, ⟨dispatch, listening, _⟩, requests, _, _, _⟩ := m
  obtain rfl : status = .ofResult r := hr.2
  obtain rfl : requests = [] := hq
  obtain rfl : listening = true := hl
  obtain rfl : parting = [] := hp
  obtain ⟨evaluates, before⟩ := run
  cases r <;> cases evaluates <;> cases serving <;> cases dispatch <;>
    simp [finish, serveAll, Machine.publish, undelivered, farewell, Machine.pending,
      Machine.observed, Machine.queue, Status.ofResult, Except.isOk, Except.toBool]

end Session

namespace Machine

/-- The machine in a mode, with an observer who listens. -/
def under (m : Machine) (d : Dispatch) (g : Gate) : Machine :=
  { m with gate := g, outbox := { m.outbox with dispatch := d, listening := true } }

variable {m : Machine} {v : Value}

theorem under_attended {d : Dispatch} {g : Gate} (ht : m.tasks = []) (hr : m.requests = [])
    (hc : m.interp.setting.registry.CallsOnly) : (m.under d g).Attended :=
  ⟨hr, rfl, hc, by simp [under, ht]⟩

theorem start_attended {d : Dispatch} {g : Gate} (ht : m.tasks = []) (hr : m.requests = [])
    (hc : m.interp.setting.registry.CallsOnly) :
    ((m.under d g).act (Interp.walkValue v [])).Attended :=
  (under_attended ht hr hc).act_orderly (Interp.edits_start v)

/-- However a mode is chosen, an evaluation begins with the same muted machine. -/
theorem muted_under {d d' : Dispatch} {g g' : Gate} (hs : m.status = .proceeding)
    (ht : m.tasks = []) (hr : m.requests = []) (hc : m.interp.setting.registry.CallsOnly) :
    ((m.under d g).act (Interp.walkValue v [])).muted [] =
      ((m.under d' g').act (Interp.walkValue v [])).muted [] := by
  have hm : (m.under d g).muted [] = (m.under d' g').muted [] := by
    obtain ⟨_, _, status, _, _, _, _, _, _, _⟩ := m
    obtain rfl : status = .proceeding := hs
    rfl
  have hv := Interp.edits_start v
  rw [muted_act_orderly (under_attended ht hr hc) hs hv,
    muted_act_orderly (under_attended ht hr hc) hs hv, hm]

/-- The machine's evaluation of the value comes to an end where an observer attends to it. -/
def Ends (m : Machine) (v : Value) : Prop :=
  ∃ xs r m', (∀ x ∈ xs, x.Steady) ∧ m.Evaluates v xs r m'

theorem Ends.of_mode {d d' : Dispatch} {g g' : Gate} (ht : m.tasks = []) (hr : m.requests = [])
    (hc : m.interp.setting.registry.CallsOnly) (h : (m.under d g).Ends v) :
    (m.under d' g').Ends v := by
  have htasks (d : Dispatch) (g : Gate) : (m.under d g).tasks = [] := ht
  obtain ⟨xs, r, m₁, hx, hs, hrun, hret⟩ := h
  rw [htasks] at hrun hret
  obtain ⟨-, n, hn⟩ := hrun.muted hx (start_attended ht hr hc)
  have he : (m₁.muted (((m.under d g).act (Interp.walkValue v [])).heard xs)).tasks = [] := by
    rw [muted_tasks _ (Returned.phase hret), hret.1]
    rfl
  have hsame : ((m.under d g).act (Interp.walkValue v [])).muted [] =
      ((m.under d' g').act (Interp.walkValue v [])).muted [] := muted_under hs ht hr hc
  rw [hn, hsame] at he
  obtain ⟨xs', m', r', hx', hrun', hret'⟩ := finishes_of_muted n (start_attended ht hr hc) he
  refine ⟨xs', r', m', hx', hs, ?_, ?_⟩
  · rw [htasks]
    exact hrun'
  · rw [htasks]
    exact hret'

/-- What two steady runs have in common that begin with the same muted machine. -/
theorem Run.muted_agree {k₁ k₂ m₁ m₂ : Machine} {xs₁ xs₂ : List Move}
    {r₁ r₂ : Except EvalError Unit} (h : k₁.muted [] = k₂.muted []) (ha₁ : k₁.Attended)
    (ha₂ : k₂.Attended) (hx₁ : ∀ x ∈ xs₁, x.Steady) (hx₂ : ∀ x ∈ xs₂, x.Steady)
    (h₁ : Run [] k₁ xs₁ m₁) (h₂ : Run [] k₂ xs₂ m₂) (hr₁ : m₁.Returned [] r₁)
    (hr₂ : m₂.Returned [] r₂) :
    m₁.muted (k₁.heard xs₁) = m₂.muted (k₂.heard xs₂) := by
  obtain ⟨-, n₁, hn₁⟩ := h₁.muted hx₁ ha₁
  obtain ⟨-, n₂, hn₂⟩ := h₂.muted hx₂ ha₂
  have hw₁ : ((k₁.muted []).run n₁).waits = true := hn₁ ▸ waits_muted hr₁
  have hw₂ : ((k₂.muted []).run n₂).waits = true := hn₂ ▸ waits_muted hr₂
  calc m₁.muted (k₁.heard xs₁)
    _ = (k₁.muted []).run (n₁ + n₂) := by rw [run_over hw₁, hn₁]
    _ = (k₂.muted []).run (n₂ + n₁) := by rw [h, Nat.add_comm]
    _ = m₂.muted (k₂.heard xs₂) := by rw [run_over hw₂, hn₂]

/-- An evaluation comes to an end in one mode if it does in the other. Then the result is the same
in both, the interpreter is left the same, and so are the notices but for those about pauses, with
the notice that the run is over where a session ends it. -/
theorem modes_agree {g₁ g₂ : Gate} (ht : m.tasks = []) (hr : m.requests = [])
    (hc : m.interp.setting.registry.CallsOnly) :
    ((m.under .inline g₁).Ends v ↔ (m.under .observer g₂).Ends v) ∧
    ∀ xs₁ xs₂ r₁ r₂ m₁ m₂, (∀ x ∈ xs₁, x.Steady) → (∀ x ∈ xs₂, x.Steady) →
      (m.under .inline g₁).Evaluates v xs₁ r₁ m₁ → (m.under .observer g₂).Evaluates v xs₂ r₂ m₂ →
      r₁ = r₂ ∧ m₁.interp = m₂.interp ∧ m₁.answers = m₂.answers ∧
      apartFromPauses (((m.under .inline g₁).act (Interp.walkValue v [])).notices xs₁) =
        apartFromPauses (((m.under .observer g₂).act (Interp.walkValue v [])).notices xs₂) ∧
      ∀ s₁ s₂ : Session, s₁.machine = m₁ → s₂.machine = m₂ → s₁.parting = [] → s₂.parting = [] →
        ∀ fuel run,
          apartFromPauses (((m.under .inline g₁).act (Interp.walkValue v [])).heard xs₁ ++
              (s₁.finish fuel run r₁).undelivered) =
            apartFromPauses (((m.under .observer g₂).act (Interp.walkValue v [])).heard xs₂ ++
              (s₂.finish fuel run r₂).undelivered) := by
  refine ⟨⟨.of_mode ht hr hc, .of_mode ht hr hc⟩, ?_⟩
  rintro xs₁ xs₂ r₁ r₂ m₁ m₂ hx₁ hx₂ ⟨hs, hrun₁, hret₁⟩ ⟨-, hrun₂, hret₂⟩
  have hs : m.status = .proceeding := hs
  have htasks (d : Dispatch) (g : Gate) : (m.under d g).tasks = [] := ht
  rw [htasks] at hrun₁ hret₁ hrun₂ hret₂
  have hstart₁ := start_attended (v := v) (d := .inline) (g := g₁) ht hr hc
  have hstart₂ := start_attended (v := v) (d := .observer) (g := g₂) ht hr hc
  have ha₁ := (hrun₁.muted hx₁ hstart₁).1
  have ha₂ := (hrun₂.muted hx₂ hstart₂).1
  have hm := Run.muted_agree (muted_under hs ht hr hc) hstart₁ hstart₂ hx₁ hx₂ hrun₁ hrun₂
    hret₁ hret₂
  obtain ⟨rfl, hi, hans, hn⟩ := eq_of_muted_eq hm hret₁ hret₂
  refine ⟨rfl, hi, hans, ?_, ?_⟩
  · rw [hrun₁.notices_eq, hrun₂.notices_eq, hn]
  · rintro s₁ s₂ rfl rfl hp₁ hp₂ fuel run
    rw [Session.undelivered_finish fuel run hret₁ ha₁.requests ha₁.listening hp₁,
      Session.undelivered_finish fuel run hret₂ ha₂.requests ha₂.listening hp₂,
      ← List.append_assoc, apartFromPauses_append, hn, ← apartFromPauses_append, List.append_assoc]

/-- An idle machine with a program that shows a truth value. -/
def showing : Machine := withProcedure [.display] #[.boolean true, .symbol "show"] .inline

theorem modes_agree_on_a_notice :
    ∃ m₁ m₂, (showing.under .inline {}).Evaluates (.list ⟨0⟩) [.step, .step, .step, .step, .step]
        (.ok ()) m₁ ∧
      (showing.under .observer {}).Evaluates (.list ⟨0⟩)
        [.step, .step, .step, .step, .receive, .step] (.ok ()) m₂ ∧
      m₁.interp = m₂.interp := by
  have h₁ : (showing.under .inline {}).Evaluates (.list ⟨0⟩) [.step, .step, .step, .step, .step]
      (.ok ()) _ :=
    ⟨rfl, run_of_stopsInTime rfl, rfl, rfl⟩
  have h₂ : (showing.under .observer {}).Evaluates (.list ⟨0⟩)
      [.step, .step, .step, .step, .receive, .step] (.ok ()) _ :=
    ⟨rfl, run_of_stopsInTime rfl, rfl, rfl⟩
  have hc : showing.interp.setting.registry.CallsOnly :=
    Registry.callsOnly_ofModules (by simpa using coreModule_callsOnly)
  have agree := (modes_agree rfl rfl hc).2 _ _ _ _ _ _ (by simp [Move.Steady])
    (by simp [Move.Steady]) h₁ h₂
  exact ⟨_, _, h₁, h₂, agree.2.1⟩

end Machine

end WordStack
