import WordStack.Proofs.Failures
import WordStack.Proofs.LiftedRuns

/-!
# The limit of frames

A push is refused where there are as many frames as there may be, so there are never more
(`Run.within`). The refusal is all that the limit does: it raises an error, and where members hand
on the failures of their callbacks, a run that does not end with such an error has met none
(`Evaluates.spared`). It then goes the same way under each limit that is not lower, and under none.
-/

namespace WordStack

namespace CallStack

/-- There are no more frames than there may be. -/
def Within (c : CallStack) : Prop := ∀ limit ∈ c.limit, c.depth ≤ limit

variable {c c' : CallStack}

theorem Within.of_fewer (hc : c.Within) (hl : c'.limit = c.limit) (hd : c'.depth ≤ c.depth) :
    c'.Within := fun limit h => Nat.le_trans hd (hc limit (hl ▸ h))

theorem Within.setCursor (hc : c.Within) (v : Value) : (c.setCursor v).Within :=
  hc.of_fewer rfl (by simp [CallStack.setCursor, depth])

theorem Within.pop (hc : c.Within) : c.pop.Within :=
  hc.of_fewer rfl (by simp [CallStack.pop, depth])

theorem Within.truncate (hc : c.Within) (n : Nat) : (c.truncate n).Within :=
  hc.of_fewer rfl (by simp [CallStack.truncate, depth, Nat.min_le_right])

end CallStack

theorem Task.raise_zero : Task.raise 0 = id := by
  funext t
  cases t <;> rfl

/-! ## Never too many frames -/

namespace Control

variable {k k' : Control}

theorem Aftermath.within (h : k.Aftermath k') (hk : k.calls.Within) : k'.calls.Within := by
  cases h with
  | plain => exact hk
  | enter hp hpush =>
    obtain ⟨-, hlimit, hdepth⟩ := CallStack.push_eq_ok hpush
    intro limit hl
    exact hdepth limit (by rw [← hlimit]; exact hl)
  | refuse hp => exact hp.calls_eq ▸ hk

theorem Change.within (h : k.Change k') (hk : k.calls.Within) : k'.calls.Within := by
  cases h with
  | task _ _ h => exact h.within hk
  | next v _ => exact hk.setCursor v
  | ended _ => exact hk.pop
  | caught _ _ _ => exact hk.truncate _
  | idle | woken | begun | leave | answer | unwind => exact hk

end Control

namespace Machine

variable {m m' : Machine} {base : List Task}

theorem act_within {word : Eval Next} (hw : ByEdits word Next.Orderly)
    (h : m.interp.calls.Within) :
    (∃ ts, (m.act word).tasks = ts ++ m.tasks) ∧ (m.act word).interp.calls.Within := by
  have htasks : m.tasks = [] ++ m.tasks := rfl
  obtain ⟨ts, ht, hafter⟩ := follows_act (hw m.interp) htasks
  exact ⟨⟨ts, ht⟩, hafter.within h⟩

/-- A run from within the limit never goes beyond it. -/
theorem Run.within {xs : List Move} (hrun : Run base m xs m') (ht : ∃ ts, m.tasks = ts ++ base)
    (h : m.interp.calls.Within) : m'.interp.calls.Within := by
  have hall : (∃ ts, m'.tasks = ts ++ base) ∧ m'.interp.calls.Within := by
    refine hrun.induct (P := fun m₁ => (∃ ts, m₁.tasks = ts ++ base) ∧ m₁.interp.calls.Within)
      ⟨ht, h⟩ fun m₁ x ⟨⟨ts, ht⟩, h⟩ hn => ?_
    obtain ⟨ts', ht', hchange⟩ := move_change x ht hn
    exact ⟨⟨ts', ht'⟩, hchange.within h⟩
  exact hall.2

/-! ## Another limit -/

/-- The machine with another limit of frames. -/
def limited (limit : Option Nat) (m : Machine) : Machine :=
  { m with interp := { m.interp with calls := { m.interp.calls with limit } } }

theorem lifted_limited (limit : Option Nat) (m : Machine) :
    Lifted ⟨#[], limit⟩ m.tasks m (m.limited limit) := by
  refine ⟨[], m.published, rfl, .inl rfl, ?_⟩
  simp [limited, Interp.lift, OperandStack.lift_of_empty]

/-- With nothing below, only the limit is another. -/
theorem Lifted.eq_limited {limit : Option Nat} {n : Machine}
    (h : Lifted ⟨#[], limit⟩ base m n) : n = m.limited limit := by
  obtain ⟨ts, p, ht, hp, rfl⟩ := h
  have hpublished : p = m.published := by
    simpa [Snapshot.withBelow] using hp
  simp [limited, Interp.lift, OperandStack.lift_of_empty, Task.raise_zero, ht, hpublished]

/-- There are never more frames than the limit says. A run under the limit that does not fail
because of it is the same under each other limit that is not lower, and under none: the machine that
it leads to differs in the limit alone, and the observer hears the same. Members have to hand on the
failures of their callbacks. Callers outside cannot hand them on, so if there are any, none of them
must have been told that a callback failed because of the limit. -/
theorem limit_only_cuts {v : Value} {k : Nat} (hlimit : m.interp.calls.limit = some k)
    (hdepth : m.interp.calls.depth ≤ k) :
    (∀ xs m₁, Run m.tasks (m.act (Interp.walkValue v [])) xs m₁ → m₁.interp.calls.depth ≤ k) ∧
    (m.interp.setting.registry.HandsOn → ∀ xs r m', m.Evaluates v xs r m' →
      (∀ e, r = .error e → ¬ e.IsLimit) →
      (m.Unasked xs ∨ ∀ e, m'.Tells m.answers e → ¬ e.IsLimit) →
      ∀ limit, (∀ k' ∈ limit, k ≤ k') →
      (m.limited limit).Evaluates v xs r (m'.limited limit) ∧
        ((m.limited limit).act (Interp.walkValue v [])).heard xs =
          (m.act (Interp.walkValue v [])).heard xs) := by
  have hedits := Interp.edits_start v
  constructor
  · intro xs m₁ hrun
    have hwithin : m.interp.calls.Within := by
      intro limit hl
      obtain rfl : k = limit := by simpa [hlimit] using hl
      exact hdepth
    obtain ⟨habove, hstart⟩ := act_within hedits hwithin
    refine hrun.within habove hstart k ?_
    rw [hrun.persists.limit, (m.act_persists (hedits m.interp).1.persists).limit]
    exact hlimit
  · intro hreg xs r m' h hr hout limit hlow
    have hspared := h.spared (fun root => ∃ limit, root = .recursionLimit limit) hreg hr hout
    obtain ⟨hready, hrun, hret⟩ := h
    have hloosens : Loosens m.interp.calls.limit limit := fun k' hk' =>
      ⟨k, hlimit, hlow k' hk'⟩
    have hstart := act_persists m (hedits m.interp).1.persists
    have hfail : Throughout (fun m₁ => ¬ m₁.Fails ⟨#[], limit⟩)
        (m.act (Interp.walkValue v [])) xs := by
      refine hrun.throughout hspared fun _ m₁ _ hfree => ?_
      rintro ⟨e, hs, ⟨hbelow, -⟩ | ⟨-, he⟩⟩
      · exact hbelow rfl
      · exact hfree (.raised hs he)
    have hact := (lifted_limited limit m).act (Interp.keeps_walkValue v rfl _)
      (.of_persists (hedits m.interp).1.persists hloosens)
    obtain ⟨n', hrun', h', hheard⟩ := hrun.lifted (hact.resolve_left hfail.start)
      (.of_persists hstart hloosens) hfail (.inl rfl) (.inl rfl)
    obtain rfl := h'.eq_limited
    exact ⟨⟨hready, hrun', hret⟩, hheard⟩

/-- A procedure that fails with two frames, as many as there may be, fails in the same way where
there may be any number. -/
theorem limit_only_cuts_of_failing : ∃ m', m'.interp.calls.depth = 2 ∧
    (failing.limited (some 2)).Evaluates (.symbol "f") (.replicate 7 .step)
      (.error .stackUnderflow) m' ∧
    ((failing.limited (some 2)).limited none).Evaluates (.symbol "f") (.replicate 7 .step)
      (.error .stackUnderflow) (m'.limited none) := by
  have h : (failing.limited (some 2)).Evaluates (.symbol "f") (.replicate 7 .step)
      (.error .stackUnderflow) _ := ⟨rfl, run_of_stopsInTime rfl, rfl, rfl⟩
  have hreg : (failing.limited (some 2)).interp.setting.registry.HandsOn :=
    Registry.satisfies_ofModules (by simpa using coreModule_handsOn)
  have hcause : ¬ EvalError.stackUnderflow.IsLimit := fun ⟨_, hroot⟩ => by cases hroot
  have hlow : ∀ k' ∈ (none : Option Nat), 2 ≤ k' := by simp
  refine ⟨_, rfl, h, ((limit_only_cuts rfl (Nat.zero_le 2)).2 hreg _ _ _ h ?_
    (.inl ⟨rfl, by simp⟩) none hlow).1⟩
  rintro e he
  obtain rfl := Except.error.inj he
  exact hcause

end Machine

end WordStack
