import WordStack.Proofs.Concatenation
import WordStack.Proofs.Control
import WordStack.Session

/-!
# Runs of a session

A session reads the program before it runs it, and by then nothing is left of an earlier run: the
frames are gone, and reading pushes none (`loadRoot_calls`). From there to its end the run of a
session is a run of its machine, whatever others do to the session in between (`Session.Runs`): each
`Intervention` is a move of the machine and then some steps.
-/

namespace WordStack

/-! ## Reading a program -/

section Reading

variable {σ α β : Type} {R : σ → σ → Prop} {s : σ}

theorem Reading.andThen_keeps {r : Reading σ α} {k : α → σ → Reading σ β} (hr : R s r.2)
    (hk : ∀ a s₁, R s s₁ → R s (k a s₁).2) : R s (r.andThen k).2 := by
  obtain ⟨e | a, s₁⟩ := r
  · exact hr
  · exact hk a s₁ hr

/-- Each answer of the handler is within the relation, which is reflexive and transitive. -/
structure DirectiveHandler.Within (h : DirectiveHandler σ) (R : σ → σ → Prop) : Prop where
  refl : ∀ s, R s s
  trans : ∀ {s₁ s₂ s₃}, R s₁ s₂ → R s₂ s₃ → R s₁ s₃
  loadFile : ∀ name s, R s (h.loadFile name s).2
  reference : ∀ module spaces s, R s (h.reference module spaces s).2

variable {d : Delimiters} {h : DirectiveHandler σ} {limit depth : Nat}

theorem obey_keeps (hw : h.Within R) (offset : Nat)
    (hdeeper : ∀ deeper < depth, ∀ ls out s, R s (expand d h limit deeper ls out s).2)
    (x : Directive) (s : σ) : R s (obey d h limit depth offset x s).2 := by
  cases x with
  | loadFile name =>
    cases depth with
    | zero => exact hw.refl s
    | succ deeper =>
      refine Reading.andThen_keeps (hw.loadFile name s) fun text s₁ h₁ => ?_
      have hinner := hdeeper deeper (Nat.lt_succ_self _) (scan d 0 text.toList) #[] s₁
      exact Reading.andThen_keeps (hw.trans h₁ hinner) fun _ _ h₂ => h₂
  | reference module spaces =>
    exact Reading.andThen_keeps (hw.reference module spaces s) fun _ _ h₁ => h₁

/-- What the answers of a handler have in common, the reading of lexemes has. -/
theorem expand_keeps (hw : h.Within R) (depth : Nat) (ls : List (Nat × Lexeme))
    (out : Array Token) (s : σ) : R s (expand d h limit depth ls out s).2 := by
  -- a loaded file is read less deep, and what follows a directive is a shorter row
  induction depth using Nat.strong_induction_on generalizing ls out s with
  | _ depth hdeeper =>
  induction ls using expand_induction d generalizing out s with
  | nil =>
    rw [expand]
    exact hw.refl s
  | plain offset l rest hl ih =>
    rw [expand_plain hl]
    exact ih _ s
  | unread offset l rest e hl hr =>
    rw [expand_unread hl hr]
    exact hw.refl s
  | read offset l rest x rest' hl hr ih =>
    rw [expand_read hl hr]
    exact Reading.andThen_keeps (obey_keeps hw offset hdeeper x s)
      fun inner s₁ h₁ => hw.trans h₁ (ih _ s₁)

end Reading

namespace Interp

theorem directives_within_edits : directives.Within Edits where
  refl _ := .refl
  trans := .trans
  loadFile _ _ := .refl
  reference module spaces i := (edits_importTypes module spaces i).1

theorem edits_readForms (source : String) : JustEdits (readForms source) := fun i => by
  have hkeeps : Edits i (tokenize i.setting.delimiters directives i.setting.loadDepth source i).2 :=
    expand_keeps directives_within_edits _ _ _ i
  refine ⟨?_, fun _ _ => trivial⟩
  unfold readForms
  split <;> next hread => rwa [hread] at hkeeps

theorem loadRoot_of_read {i j : Interp} {forms : List Form}
    (h : readForms i.code i = (.ok forms, j)) :
    loadRoot i = (.ok (j.store.newProgram forms).1, { j with
      store := (j.store.newProgram forms).2, root := (j.store.newProgram forms).1 }) := by
  have hget : (get : Eval Interp) i = (.ok i, i) := rfl
  simp only [loadRoot, parse, bind_apply, hget, h]
  rfl

theorem loadRoot_of_unread {i j : Interp} {e : EvalError}
    (h : readForms i.code i = (.error e, j)) : loadRoot i = (.error e, j) := by
  have hget : (get : Eval Interp) i = (.ok i, i) := rfl
  simp only [loadRoot, parse, bind_apply, hget, h]

/-- Reading the program pushes no frames. -/
theorem loadRoot_calls (i : Interp) : (loadRoot i).2.calls = i.calls := by
  have hforms := (edits_readForms i.code i).1.calls_eq
  rcases hread : readForms i.code i with ⟨e | forms, j⟩
  · rw [hread] at hforms
    rw [loadRoot_of_unread hread]
    exact hforms
  · rw [hread] at hforms
    rw [loadRoot_of_read hread]
    exact hforms

end Interp

/-! ## Before a run and after it -/

theorem Machine.queue_keeps (m : Machine) (e : Event) :
    (m.queue e).tasks = m.tasks ∧ (m.queue e).status = m.status := by
  unfold queue
  split <;> exact ⟨rfl, rfl⟩

namespace Session

variable {s : Session} {fuel : Nat}

/-- The machine of the session has nothing to do, and nothing has gone wrong on it. -/
structure Idle (s : Session) : Prop where
  tasks : s.machine.tasks = []
  status : s.machine.status = .proceeding

theorem finish_busy (run : RunInProgress) (r : Except EvalError Unit) :
    (s.finish fuel run r).busy = none := by
  unfold finish
  dsimp only
  split
  · rfl
  · split <;> rfl

theorem new_idle {config : Config} {attached : Bool} {store : Store}
    (h : Session.new config attached store = .ok s) : s.Idle := by
  unfold Session.new at h
  split at h
  · cases h
  · cases h
    exact ⟨rfl, rfl⟩

/-- At its end a run leaves the session idle, unless callbacks are still to be served. -/
theorem finish_idle {r : Except EvalError Unit} (run : RunInProgress)
    (hr : s.machine.Returned [] r) (hq : s.machine.requests = []) :
    (s.finish fuel run r).Idle := by
  have hserved (m : Machine) (hm : m.requests = []) :
      serveAll fuel (m.requests.length + 1) m = m := by
    rw [serveAll, hm]
  have hended := hserved ({ s.machine with status := .proceeding, running := false }.publish) hq
  have htasks := (congrArg Machine.tasks hended).trans hr.1
  have hstatus := congrArg Machine.status hended
  unfold finish
  dsimp only
  split
  · exact ⟨htasks, hstatus⟩
  · split
    · exact ⟨htasks, hstatus⟩
    · exact ⟨(Machine.queue_keeps _ _).1.trans htasks, (Machine.queue_keeps _ _).2.trans hstatus⟩

/-- A session whose machine is done has no run in progress any more. -/
theorem settle_of_returned {r : Except EvalError Unit} (h : s.machine.Returned [] r) :
    (s.settle fuel).busy = none := by
  unfold settle
  dsimp only
  rw [Machine.run_of_waits (Machine.waits_of_returned h)]
  split
  · exact finish_busy _ _
  · next hnot =>
    exact Option.eq_none_iff_forall_ne_some.2 fun run hrun =>
      hnot run r hrun (Machine.outcome_of_returned h)

end Session

/-! ## Runs -/

/-- What others can do to a session while it runs. -/
inductive Intervention where
  | resume (stepNext : Bool)
  /-- The observer receives a notice. -/
  | next
  | dropObserver
  | invoke (thread : ThreadId) (c : Callback) (args : Array Value)

namespace Session

variable {start : Machine} {s : Session} {fuel : Nat}

def intervene (fuel : Nat) (s : Session) : Intervention → Session
  | .resume stepNext => (s.resume fuel stepNext).2
  | .next => (s.next fuel).2
  | .dropObserver => s.dropObserver fuel
  | .invoke thread c args => (s.invoke fuel thread c args).2

/-- As long as the session has a run in progress, its machine has come by a run from `start`, and
is not done. -/
def Runs (start : Machine) (s : Session) : Prop :=
  s.busy.isSome = true →
    (∃ xs, Machine.Run [] start xs s.machine) ∧ ∀ r, ¬ s.machine.Returned [] r

theorem settle_runs (h : s.busy.isSome = true → ∃ xs, Machine.Run [] start xs s.machine) :
    (s.settle fuel).Runs start := by
  unfold settle
  dsimp only
  split
  · next run r hbusy hr =>
    intro hover
    rw [finish_busy] at hover
    cases hover
  · next hnot =>
    intro hbusy
    obtain ⟨xs, hrun⟩ := h hbusy
    obtain ⟨ys, -, hsteps⟩ := Machine.run_steps fuel s.machine
    obtain ⟨run, hrun'⟩ := Option.isSome_iff_exists.1 hbusy
    exact ⟨⟨_, hsteps hrun⟩, fun r hr => hnot run r hrun' (Machine.outcome_of_returned hr)⟩

variable (fuel) in
/-- A move of the machine, and then some steps. -/
theorem Runs.move (h : s.Runs start) (x : Move) :
    ({ s with machine := s.machine.move x }.settle fuel).Runs start :=
  settle_runs fun hbusy =>
    have ⟨⟨_, hrun⟩, hnot⟩ := h hbusy
    ⟨_, .snoc x hrun hnot⟩

theorem Runs.receive (h : s.Runs start) (n : Nat) : (s.receive fuel n).2.Runs start := by
  induction n generalizing s with
  | zero => exact h
  | succ n ih =>
    unfold Session.receive
    split
    · next e hq =>
      intro hbusy
      obtain ⟨⟨xs, hrun⟩, hnot⟩ := h hbusy
      have hmove := hrun.snoc .receive hnot
      simp only [Machine.move, Machine.receive, hq] at hmove
      exact ⟨⟨_, hmove⟩, hnot⟩
    · next hq =>
      split
      · exact h
      · split
        · next w hoffer =>
          have hnext : ({ s with machine := s.machine.take.2 }.settle fuel).Runs start := by
            have hmove := h.move fuel .receive
            rwa [Machine.move, Machine.receive, hq] at hmove
          dsimp only
          split
          · exact hnext
          · exact ih hnext
        · exact h

theorem Runs.dropObserver (h : s.Runs start) : (s.dropObserver fuel).Runs start :=
  settle_runs fun hbusy =>
    have ⟨⟨_, hrun⟩, hnot⟩ := h hbusy
    ⟨_, .snoc .dropObserver hrun hnot⟩

theorem Runs.invoke (h : s.Runs start) (thread : ThreadId) (c : Callback) (args : Array Value) :
    (s.invoke fuel thread c args).2.Runs start := by
  unfold Session.invoke
  dsimp only
  split
  · exact h
  · split
    · exact h
    · split
      · exact h
      · split
        · exact h
        · split
          · next hnone =>
            intro hbusy
            cases (Option.isNone_iff_eq_none.1 hnone) ▸ hbusy
          · intro hbusy
            obtain ⟨⟨xs, hrun⟩, hnot⟩ := h hbusy
            exact ⟨⟨_, hrun.snoc (.request ⟨c, args, s.tickets⟩) hnot⟩, hnot⟩

theorem Runs.intervene (h : s.Runs start) (x : Intervention) : (s.intervene fuel x).Runs start := by
  cases x with
  | resume stepNext => exact h.move fuel (.resume stepNext)
  | next => exact h.receive fuel
  | dropObserver => exact h.dropObserver
  | invoke thread c args => exact h.invoke thread c args

/-- Nothing that others do leads out of the run. -/
theorem Runs.interventions (h : s.Runs start) (xs : List Intervention) :
    (xs.foldl (Session.intervene fuel) s).Runs start := by
  induction xs generalizing s with
  | nil => exact h
  | cons x xs ih => exact ih (h.intervene x)

/-- While a run is in progress others see what it has published. -/
theorem snapshot_of_busy (h : s.busy.isSome = true) : s.snapshot = s.machine.published := by
  obtain ⟨run, hrun⟩ := Option.isSome_iff_exists.1 h
  simp [snapshot, hrun]

theorem onInterp_loadRoot {s₁ : Session} {r : Except EvalError ListId}
    (h : s.onInterp Interp.loadRoot = (r, s₁)) :
    s₁.machine.tasks = s.machine.tasks ∧ s₁.machine.status = s.machine.status ∧
      s₁.machine.interp.calls = s.machine.interp.calls := by
  cases h
  exact ⟨rfl, rfl, Interp.loadRoot_calls _⟩

/-- A run begins where the machine has nothing to do and no frames, with the walk of a list. -/
theorem start_runs {s' : Session} {thread : ThreadId} {code : Option String} (hi : s.Idle)
    (h : s.start fuel thread code true = .ok s') :
    ∃ (m : Machine) (items : ListId), m.tasks = [] ∧ m.status = .proceeding ∧
      m.interp.calls.frames = #[] ∧ s'.Runs (m.enter items []) := by
  unfold Session.start at h
  split at h
  · cases h
  · dsimp only at h
    split at h
    · next root s₁ hload =>
      rw [if_pos rfl] at h
      cases h
      obtain ⟨htasks, hstatus, hcalls⟩ := onInterp_loadRoot hload
      refine ⟨s₁.machine, root, htasks.trans hi.tasks, hstatus.trans hi.status, ?_,
        settle_runs fun _ => ⟨[], .refl _⟩⟩
      rw [hcalls]
      rfl
    · next e s₁ hload =>
      cases h
      obtain ⟨htasks, -, -⟩ := onInterp_loadRoot hload
      have hfailed : Machine.Returned { s₁.machine with status := .raising e } [] (.error e) :=
        ⟨htasks.trans hi.tasks, rfl⟩
      refine ⟨s.machine.reset, ⟨0⟩, hi.tasks, hi.status, rfl, fun hbusy => ?_⟩
      rw [settle_of_returned hfailed] at hbusy
      cases hbusy

end Session

end WordStack
