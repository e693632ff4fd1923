import WordStack.Proofs.Failures
import WordStack.Proofs.LiftedRuns

/-!
# Values below the operands of a run

A run has one operand stack for all that it does. Whatever is below its operands at the start is
there at the end, and the run is the same with other values below (`stack_local`), unless it asks
for the whole stack or lacks an operand on the way. A failure of the second kind ends a run, but a
callback that fails so need not: its caller may be content with that, and then the run goes on and
ends well, where with a value below the callback would have taken the value (`stack_not_local`).
Where members hand on the failures of their callbacks, and no caller outside has been told of one, a
run that ends well has met none (`Evaluates.neverLacks`).
-/

namespace WordStack.Machine

/-- The machine with values below its operands. -/
def withBelow (below : Array Value) (m : Machine) : Machine :=
  { m with interp := { m.interp with stack := ⟨below ++ m.interp.stack.values⟩ } }

/-- Nothing on the way fails for the lack of an operand: no word, and no callback that should have
left a result. -/
def NeverLacks (m : Machine) (xs : List Move) : Prop :=
  Throughout (fun m₁ => m₁.status ≠ .raising .stackUnderflow) m xs ∧ Avoids Misanswers m xs

variable {m m' : Machine} {base : List Task} {xs : List Move} {r : Except EvalError Unit}

/-! ## Operands that are lacking -/

/-- A callback without its result is a failure above the base. -/
theorem Misanswers.doomed (h : m.Misanswers) {ts : List Task} (ht : m.tasks = ts ++ base)
    (hn : ∀ r, ¬ m.Returned base r) {old : List (Nat × Except EvalError (Option Value))} :
    Doomed (· = .stackUnderflow) old base m := by
  obtain ⟨hs, returns, depth, servingBefore, reply, ts', htasks, hresult⟩ := h
  cases ts with
  | nil => exact absurd ⟨ht, hs⟩ (hn (.ok ()))
  | cons t ts =>
    obtain ⟨rfl, -⟩ := List.cons.inj (ht.symm.trans htasks)
    exact .misanswered hs ht hresult rfl

/-- An evaluation that does not fail for the lack of an operand has met no such failure, if nobody
outside has been told of one. -/
theorem Evaluates.neverLacks {v : Value} (h : m.Evaluates v xs r m')
    (hreg : m.interp.setting.registry.HandsOn)
    (hr : ∀ e, r = .error e → e.rootCause ≠ .stackUnderflow)
    (hout : m.Unasked xs ∨ ∀ e, m'.Tells m.answers e → e.rootCause ≠ .stackUnderflow) :
    (m.act (Interp.walkValue v [])).NeverLacks xs := by
  have hspared := h.spared (· = .stackUnderflow) hreg hr hout
  obtain ⟨hi, -⟩ := act_inherits (T := fun _ => True) HostProgram.handsOn_hereditary hreg
    (fun _ _ => trivial) (Interp.edits_start v)
  constructor
  · exact h.run.throughout hspared fun _ m₁ _ hfree hs => hfree (.raised hs rfl)
  · refine h.run.avoids hspared fun ys m₁ hrun hfree hn hmis => ?_
    obtain ⟨ts, ht, -⟩ := (hrun.inherits HostProgram.handsOn_hereditary hi
      fun _ _ => trivial).1.tasks
    exact hfree (hmis.doomed ht hn)

/-! ## Other values below -/

theorem not_readsStack {t : Task} {ts : List Task} (ht : m.tasks = t :: ts)
    (h : ¬ m.PerformsRead t) : ¬ m.ReadsStack := by
  rintro ⟨-, t', ts', ht', hread⟩
  obtain ⟨rfl, -⟩ := List.cons.inj (ht.symm.trans ht')
  exact h hread

theorem lifted_withBelow (below : Array Value) (m : Machine) :
    Lifted ⟨below, m.interp.calls.limit⟩ m.tasks m (m.withBelow below) :=
  ⟨[], m.published, rfl, .inl rfl, rfl⟩

theorem Lifted.eq_withBelow {below : Array Value} {limit : Option Nat} {n : Machine}
    (h : Lifted ⟨below, limit⟩ base m n) (ht : m.tasks = base)
    (hlimit : limit = m.interp.calls.limit) :
    ∃ published, (published = m.published ∨ published = m.published.withBelow below) ∧
      n = { m.withBelow below with published } := by
  subst hlimit
  obtain ⟨ts, published, ht', hp, rfl⟩ := h
  obtain rfl : ts = [] := List.append_left_eq_self.1 (ht'.symm.trans ht)
  exact ⟨published, hp, by rw [← ht]; rfl⟩

/-- What is below the operands of a run stays below, and changes nothing: with other values there,
the same moves end with the same result, and the machine that they lead to has these values below
its operands, as has a snapshot that was left on the way; in all else it is the same, and the
observer hears the same. The run must not ask for the operand stack, and nothing on the way may fail
for the lack of an operand. Where members hand on the failures of their callbacks, it is enough that
the run does not end with such a failure, and that no caller outside is told of one. -/
theorem stack_local {v : Value} (h : m.Evaluates v xs r m')
    (hread : (m.act (Interp.walkValue v [])).Avoids ReadsStack xs) :
    ((m.act (Interp.walkValue v [])).NeverLacks xs → ∀ below, ∃ published,
      (published = m'.published ∨ published = m'.published.withBelow below) ∧
      (m.withBelow below).Evaluates v xs r { m'.withBelow below with published } ∧
      ((m.withBelow below).act (Interp.walkValue v [])).heard xs =
        (m.act (Interp.walkValue v [])).heard xs) ∧
    (m.interp.setting.registry.HandsOn → (∀ e, r = .error e → e.rootCause ≠ .stackUnderflow) →
      (m.Unasked xs ∨ ∀ e, m'.Tells m.answers e → e.rootCause ≠ .stackUnderflow) →
      (m.act (Interp.walkValue v [])).NeverLacks xs) := by
  have hedits := Interp.edits_start v
  constructor
  · rintro ⟨hraised, hanswered⟩ below
    obtain ⟨hready, hrun, hret⟩ := h
    let u : Lift := ⟨below, m.interp.calls.limit⟩
    have hstart := m.act_persists (hedits m.interp).1.persists
    have hfail : Throughout (fun m₁ => ¬ m₁.Fails u) (m.act (Interp.walkValue v [])) xs := by
      refine hrun.throughout hraised fun _ m₁ hrun₁ hfree => ?_
      rintro ⟨e, hs, ⟨-, rfl⟩ | ⟨hlimit, -⟩⟩
      · exact hfree hs
      · exact hlimit (hstart.trans hrun₁.persists).limit.symm
    have hloosens : Loosens m.interp.calls.limit u.limit := fun k hk => ⟨k, hk, Nat.le_refl k⟩
    have hact := (lifted_withBelow below m).act (Interp.keeps_walkValue v rfl _)
      (.of_persists (hedits m.interp).1.persists hloosens)
    obtain ⟨n', hrun', h', hheard⟩ := hrun.lifted (hact.resolve_left hfail.start)
      (.of_persists hstart hloosens) hfail (.inr hread) (.inr hanswered)
    obtain ⟨published, hp, rfl⟩ := h'.eq_withBelow hret.1 (hstart.trans hrun.persists).limit.symm
    exact ⟨published, hp, ⟨hready, hrun', hret⟩, hheard⟩
  · exact h.neverLacks

/-- It takes a number off the stack, and pushes the values that it leaves and how many they are. -/
def splitting : Machine :=
  (withProcedure [.evaluateAndSplit] #[] .inline).withBelow #[.integer 5]

theorem stack_local_of_splitting : ∃ m' n',
    splitting.Evaluates (.symbol "evaluate-and-split") (.replicate 7 .step) (.ok ()) m' ∧
    m'.interp.stack.values = #[.integer 5, .integer 1] ∧
    (splitting.withBelow #[.integer 7, .integer 7]).Evaluates (.symbol "evaluate-and-split")
      (.replicate 7 .step) (.ok ()) n' ∧
    n'.interp.stack.values = #[.integer 7, .integer 7, .integer 5, .integer 1] := by
  have h : splitting.Evaluates (.symbol "evaluate-and-split") (.replicate 7 .step) (.ok ()) _ :=
    ⟨rfl, run_of_stopsInTime rfl, rfl, rfl⟩
  have hread : (splitting.act (Interp.walkValue (.symbol "evaluate-and-split") [])).Avoids
      ReadsStack (.replicate 7 .step) :=
    ⟨fun _ => not_readsStack rfl id,
      fun _ => not_readsStack rfl fun ⟨_, _, _, _, _, hv, _, hset, _⟩ => (by
        cases hv
        cases hset),
      fun _ => not_readsStack rfl id,
      fun _ => not_readsStack (t := .element (.integer 5)) rfl
        fun ⟨_, _, _, _, _, hv, _⟩ => (by cases hv),
      fun _ => not_readsStack rfl id, fun _ => not_readsStack rfl id,
      fun _ => not_readsStack rfl id, trivial⟩
  have hreg : splitting.interp.setting.registry.HandsOn :=
    Registry.satisfies_ofModules (by simpa using coreModule_handsOn)
  have hlacks := (stack_local h hread).2 hreg (fun e he => by cases he) (.inl ⟨rfl, by simp⟩)
  obtain ⟨published, -, hover, -⟩ := (stack_local h hread).1 hlacks #[.integer 7, .integer 7]
  exact ⟨_, _, h, rfl, hover, rfl⟩

/-- Someone outside has a callback run that should leave a result, while a number is evaluated. -/
def asked : List Move :=
  .request ⟨⟨0, ⟨0⟩, ⟨[], some (.core "Object")⟩, false⟩, #[], 0⟩ :: .replicate 6 .step

theorem stack_not_local : ¬ ∀ (m m' : Machine) (v : Value) (xs : List Move) (below : Array Value),
    m.Evaluates v xs (.ok ()) m' → (m.act (Interp.walkValue v [])).Avoids ReadsStack xs →
    ∃ n', (m.withBelow below).Evaluates v xs (.ok ()) n' ∧
      n'.interp.stack.values = below ++ m'.interp.stack.values := by
  intro hlocal
  have hrun : idle.Evaluates (.integer 5) asked (.ok ()) _ :=
    ⟨rfl, run_of_stopsInTime rfl, rfl, rfl⟩
  have hread : (idle.act (Interp.walkValue (.integer 5) [])).Avoids ReadsStack asked :=
    ⟨fun h => (by cases h), fun _ => not_readsStack rfl id,
      fun _ => not_readsStack rfl fun h => (by cases h.1), fun _ => not_readsStack rfl id,
      fun _ => not_readsStack rfl id,
      fun _ => not_readsStack rfl fun ⟨_, _, _, _, _, hv, _⟩ => (by cases hv),
      fun _ => not_readsStack rfl id, trivial⟩
  obtain ⟨n', hn', hstack⟩ := hlocal _ _ _ _ #[.integer 7] hrun hread
  rw [hn'.run.eq_foldl] at hstack
  have hsize : 1 = 2 := congrArg Array.size hstack
  cases hsize

end WordStack.Machine
