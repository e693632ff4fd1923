import WordStack.Interp.Start
import WordStack.Machine.Evaluation

/-!
# Runs of the machine

A `Move` is a step of the machine or something that the outside does to it in between. `Run rest`
is a row of moves that ends at the latest where the tasks `rest` are next: all that was to be done
before them is then over, with a result (`Returned`). `Completes` is a run of one word from a
machine that is ready for it, and `Evaluates` the run of a whole evaluation, whatever tasks lie
below it. A run does not say how many steps there are, and lets the outside come in anywhere;
`evaluates_of_evaluate` finds the one of `Machine.evaluate` in it.
-/

namespace WordStack

/-- What can happen to a machine. -/
inductive Move where
  /-- The machine goes on by itself. -/
  | step
  /-- The observer receives the next notice, or begins a host call. -/
  | receive
  | resume (stepNext : Bool)
  | request (r : Request)
  | dropObserver

/-- The status of a machine whose run has the result. -/
def Status.ofResult : Except EvalError Unit → Status
  | .ok _ => .proceeding
  | .error e => .raising e

namespace Machine

/-- The observer receives the first notice of the queue, else takes what is offered. -/
def receive (m : Machine) : Option Event × Machine :=
  match m.outbox.queued[0]? with
  | some e =>
    let outbox := { m.outbox with queued := m.outbox.queued.eraseIdxIfInBounds 0 }
    (some e, { m with outbox })
  | none => m.take

def move (m : Machine) : Move → Machine
  | .step => m.step
  | .receive => m.receive.2
  | .resume stepNext => (m.resume stepNext).2
  | .request r => m.request r
  | .dropObserver => m.dropObserver

/-- The notice that a move brings to the observer. -/
def notice? (m : Machine) : Move → Option Event
  | .receive => m.receive.1
  | _ => none

/-- The notices that a row of moves brings to the observer. -/
def heard (m : Machine) : List Move → List Event
  | [] => []
  | x :: xs => (m.notice? x).toList ++ (m.move x).heard xs

/-- All that was to be done before the tasks `rest` is over, with the result. -/
def Returned (m : Machine) (rest : List Task) (r : Except EvalError Unit) : Prop :=
  m.tasks = rest ∧ m.status = .ofResult r

/-- Moves in a row, of which none comes after the return to `rest`. -/
inductive Run (rest : List Task) : Machine → List Move → Machine → Prop where
  | refl (m : Machine) : Run rest m [] m
  | snoc {m m₁ : Machine} {xs : List Move} (x : Move) : Run rest m xs m₁ →
      (∀ r, ¬ m₁.Returned rest r) → Run rest m (xs ++ [x]) (m₁.move x)

/-- A word is performed, and all that it leaves to be done, by a machine that is ready for it. -/
structure Completes (m : Machine) (word : Eval Next) (xs : List Move)
    (r : Except EvalError Unit) (m' : Machine) : Prop where
  ready : m.status = .proceeding
  run : Run m.tasks (m.act word) xs m'
  returned : m'.Returned m.tasks r

/-- A value is walked to the end. -/
abbrev Evaluates (m : Machine) (v : Value) : List Move → Except EvalError Unit → Machine → Prop :=
  m.Completes (Interp.walkValue v [])

/-! ## Steps -/

section Step

variable {m : Machine} {t : Task} {ts : List Task}

theorem step_of_proceeding (hs : m.status = .proceeding)
    (ht : m.tasks = t :: ts) : m.step = { m with tasks := ts }.perform t := by
  unfold step
  split
  · next t' ts' _ ht' =>
    obtain ⟨rfl, rfl⟩ := List.cons.inj (ht.symm.trans ht')
    rfl
  · next e _ _ he _ =>
    rw [hs] at he
    cases he
  · next h _ => exact absurd ht (h t ts hs)

theorem step_of_raising {e : EvalError} (hs : m.status = .raising e)
    (ht : m.tasks = t :: ts) : m.step = { m with tasks := ts }.unwind e t := by
  unfold step
  split
  · next hp _ =>
    rw [hs] at hp
    cases hp
  · next e' t' ts' he ht' =>
    obtain rfl := Status.raising.inj (hs.symm.trans he)
    obtain ⟨rfl, rfl⟩ := List.cons.inj (ht.symm.trans ht')
    rfl
  · next h => exact absurd ht (h e t ts hs)

theorem step_of_nil (ht : m.tasks = []) : m.step = m := by
  unfold step
  split
  · next h => cases ht.symm.trans h
  · next h => cases ht.symm.trans h
  · rfl

end Step

/-! ## Rows of moves -/

theorem heard_append (m : Machine) (xs ys : List Move) :
    m.heard (xs ++ ys) = m.heard xs ++ (xs.foldl move m).heard ys := by
  induction xs generalizing m with
  | nil => rfl
  | cons x xs ih => simp [heard, ih]

theorem Run.eq_foldl {rest : List Task} {m m' : Machine} {xs : List Move}
    (h : Run rest m xs m') : m' = xs.foldl move m := by
  induction h with
  | refl => rfl
  | snoc x _ _ ih => simp [ih]

theorem Run.heard_snoc {rest : List Task} {m m₁ : Machine} {xs : List Move}
    (h : Run rest m xs m₁) (x : Move) :
    m.heard (xs ++ [x]) = m.heard xs ++ (m₁.notice? x).toList := by
  rw [heard_append, h.eq_foldl]
  simp [heard]

theorem Run.trans {rest : List Task} {m m₁ m₂ : Machine} {xs ys : List Move}
    (h : Run rest m xs m₁) (h' : Run rest m₁ ys m₂) : Run rest m (xs ++ ys) m₂ := by
  induction h' with
  | refl => simpa using h
  | snoc x _ hn ih =>
    rw [← List.append_assoc]
    exact .snoc x ih hn

theorem Run.split {rest : List Task} {m m' : Machine} {xs ys : List Move}
    (h : Run rest m (xs ++ ys) m') :
    Run rest m xs (xs.foldl move m) ∧ Run rest (xs.foldl move m) ys m' := by
  generalize hzs : xs ++ ys = zs at h
  induction h generalizing ys with
  | refl =>
    obtain ⟨rfl, rfl⟩ := List.append_eq_nil_iff.1 hzs
    exact ⟨.refl _, .refl _⟩
  | @snoc m₁ zs x hrun hn ih =>
    obtain rfl | ⟨ys', y, rfl⟩ := List.eq_nil_or_concat ys
    · rw [List.append_nil] at hzs
      subst hzs
      have hall : Run rest m (zs ++ [x]) (m₁.move x) := .snoc x hrun hn
      rw [← hall.eq_foldl]
      exact ⟨hall, .refl _⟩
    · rw [List.concat_eq_append, ← List.append_assoc] at hzs
      obtain ⟨rfl, hy⟩ := List.append_inj' hzs rfl
      obtain rfl : y = x := by simpa using hy
      obtain ⟨hfront, hback⟩ := ih rfl
      refine ⟨hfront, ?_⟩
      rw [List.concat_eq_append]
      exact .snoc y hback hn

/-- What every move keeps holds at the end of a run where it holds at the start. -/
theorem Run.induct {rest : List Task} {P : Machine → Prop} {m m' : Machine} {xs : List Move}
    (h : Run rest m xs m') (hm : P m)
    (hx : ∀ m₁ x, P m₁ → (∀ r, ¬ m₁.Returned rest r) → P (m₁.move x)) : P m' := by
  induction h with
  | refl => exact hm
  | snoc x _ hn ih => exact hx _ x ih hn

/-! ## On the way -/

/-- The property holds of the machine and of each one that the moves lead to from it. -/
def Throughout (P : Machine → Prop) (m : Machine) : List Move → Prop
  | [] => P m
  | x :: xs => P m ∧ Throughout P (m.move x) xs

/-- No step is made from a machine of which the property holds. -/
def Avoids (P : Machine → Prop) (m : Machine) : List Move → Prop
  | [] => True
  | x :: xs => (x = .step → ¬ P m) ∧ Avoids P (m.move x) xs

section Throughout

variable {P Q : Machine → Prop} {rest : List Task} {m m' : Machine} {xs : List Move}

theorem Throughout.start (h : Throughout P m xs) : P m := by
  cases xs with
  | nil => exact h
  | cons x xs => exact h.1

theorem Throughout.finish (h : Throughout P m xs) : P (xs.foldl move m) := by
  induction xs generalizing m with
  | nil => exact h
  | cons x xs ih => exact ih h.2

theorem throughout_snoc (x : Move) :
    Throughout P m (xs ++ [x]) ↔ Throughout P m xs ∧ P ((xs.foldl move m).move x) := by
  induction xs generalizing m with
  | nil => rfl
  | cons y xs ih =>
    rw [List.cons_append, Throughout, Throughout, ih, and_assoc]
    rfl

theorem avoids_snoc (x : Move) :
    Avoids P m (xs ++ [x]) ↔ Avoids P m xs ∧ (x = .step → ¬ P (xs.foldl move m)) := by
  induction xs generalizing m with
  | nil => simp [Avoids]
  | cons y xs ih =>
    rw [List.cons_append, Avoids, Avoids, ih, and_assoc]
    rfl

/-- What follows for each machine that a run leads to. -/
theorem Run.throughout (h : Run rest m xs m') (hq : Throughout Q m xs)
    (hp : ∀ ys m₁, Run rest m ys m₁ → Q m₁ → P m₁) : Throughout P m xs := by
  induction h with
  | refl => exact hp [] m (.refl m) hq
  | @snoc m₁ xs x hrun hn ih =>
    rw [throughout_snoc, ← hrun.eq_foldl] at hq
    rw [throughout_snoc, ← hrun.eq_foldl]
    exact ⟨ih hq.1, hp _ _ (.snoc x hrun hn) hq.2⟩

/-- What a machine of a run is not, where the next move is made. -/
theorem Run.avoids (h : Run rest m xs m') (hq : Throughout Q m xs)
    (hp : ∀ ys m₁, Run rest m ys m₁ → Q m₁ → (∀ r, ¬ m₁.Returned rest r) → ¬ P m₁) :
    Avoids P m xs := by
  induction h with
  | refl => trivial
  | @snoc m₁ xs x hrun hn ih =>
    rw [throughout_snoc] at hq
    rw [avoids_snoc, ← hrun.eq_foldl]
    exact ⟨ih hq.1, fun _ => hp _ _ hrun (hrun.eq_foldl ▸ hq.1.finish) hn⟩

end Throughout

/-! ## Runs that count their steps -/

theorem not_returned_of_not_waits {m : Machine} (h : m.waits = false)
    (r : Except EvalError Unit) : ¬ m.Returned [] r := by
  rintro ⟨ht, -⟩
  unfold waits at h
  split at h <;> simp_all

/-- Steps that are taken until the machine waits are a run of the idle machine. -/
theorem run_steps (fuel : Nat) (m : Machine) :
    ∃ xs, (∀ x ∈ xs, x = Move.step) ∧
      ∀ {m₀ ys}, Run [] m₀ ys m → Run [] m₀ (ys ++ xs) (m.run fuel) := by
  induction fuel generalizing m with
  | zero => exact ⟨[], by simp, fun h => by simpa [run] using h⟩
  | succ fuel ih =>
    unfold run
    split
    · exact ⟨[], by simp, fun h => by simpa using h⟩
    · next hw =>
      obtain ⟨xs, hxs, hrun⟩ := ih m.step
      refine ⟨.step :: xs, by simpa using hxs, fun {m₀ ys} h => ?_⟩
      have h1 : Run [] m₀ (ys ++ [.step]) m.step :=
        .snoc .step h (not_returned_of_not_waits (by simpa using hw))
      simpa using hrun h1

theorem run_succ (n : Nat) (c : Machine) : c.run (n + 1) = (c.run n).step := by
  induction n generalizing c with
  | zero =>
    rw [run, run]
    split
    · next hw => exact (step_of_waits hw).symm
    · rfl
  | succ n ih =>
    by_cases hw : c.waits = true
    · rw [run, if_pos hw, run, if_pos hw, step_of_waits hw]
    · rw [run, if_neg hw, ih, run, if_neg hw]

/-- A machine that waits goes on waiting. -/
theorem run_over {n : Nat} {c : Machine} (h : (c.run n).waits = true) (k : Nat) :
    c.run (n + k) = c.run n := by
  induction k with
  | zero => rfl
  | succ k ih => rw [Nat.add_succ, run_succ, ih, step_of_waits h]

/-- A machine that waits takes no steps. -/
theorem run_of_waits {m : Machine} (h : m.waits = true) (n : Nat) : m.run n = m := by
  cases n with
  | zero => rfl
  | succ n => rw [run, if_pos h]

theorem run_step (n : Nat) (c : Machine) : c.step.run n = c.run (n + 1) := by
  rw [run]
  split
  · next hw => rw [step_of_waits hw, run_of_waits hw]
  · rfl

theorem returned_of_outcome {m : Machine} {r : Except EvalError Unit}
    (h : m.outcome? = some r) : m.Returned [] r := by
  unfold outcome? at h
  split at h
  · next hs ht => cases h; exact ⟨ht, hs⟩
  · next e hs ht => cases h; exact ⟨ht, hs⟩
  · cases h

theorem outcome_of_returned {m : Machine} {r : Except EvalError Unit}
    (h : m.Returned [] r) : m.outcome? = some r := by
  rw [outcome?, h.1, h.2]
  cases r <;> rfl

theorem waits_of_returned {m : Machine} {r : Except EvalError Unit} (h : m.Returned [] r) :
    m.waits = true := by
  rw [waits, h.1, h.2]
  cases r <;> rfl

/-- No move of the row comes after the end of the run. -/
def stopsInTime (m : Machine) : List Move → Bool
  | [] => true
  | x :: xs => m.outcome?.isNone && (m.move x).stopsInTime xs

theorem run_of_stopsInTime {m : Machine} {xs : List Move} (h : m.stopsInTime xs = true) :
    Run [] m xs (xs.foldl move m) := by
  have from_here (xs : List Move) : ∀ {m₀ ys m}, Run [] m₀ ys m → m.stopsInTime xs = true →
      Run [] m₀ (ys ++ xs) (xs.foldl move m) := by
    induction xs with
    | nil =>
      intro m₀ ys m hrun _
      simpa using hrun
    | cons x xs ih =>
      intro m₀ ys m hrun hx
      simp only [stopsInTime, Bool.and_eq_true, Option.isNone_iff_eq_none] at hx
      have hsnoc : Run [] m₀ (ys ++ [x]) (m.move x) := .snoc x hrun fun r hr => by
        cases hx.1.symm.trans (outcome_of_returned hr)
      simpa using ih hsnoc hx.2
  exact from_here xs (.refl m) h

/-- A word that an idle machine completes within the steps is completed by a run. -/
theorem completes_of_finish {fuel : Nat} {m : Machine} {word : Eval Next}
    {r : Except EvalError Unit} (hm : m.status = .proceeding) (ht : m.tasks = [])
    (h : ((m.act word).finish fuel).1 = some r) :
    ∃ xs m', (∀ x ∈ xs, x = Move.step) ∧ m.Completes word xs r m' ∧
      ((m.act word).finish fuel).2 = { m' with status := .proceeding } := by
  obtain ⟨xs, hxs, hrun⟩ := run_steps fuel (m.act word)
  unfold finish at h ⊢
  simp only at h ⊢
  split at h
  · next r' hr =>
    cases h
    refine ⟨xs, (m.act word).run fuel, hxs, ⟨hm, ?_, ?_⟩, rfl⟩
    · rw [ht]
      exact hrun (.refl _)
    · rw [ht]
      exact returned_of_outcome hr
  · cases h

/-- An evaluation that ends within its steps is one of the idle machine, left ready again. -/
theorem evaluates_of_evaluate {fuel : Nat} {m : Machine} {v : Value}
    {r : Except EvalError Unit} (hm : m.status = .proceeding) (ht : m.tasks = [])
    (h : (m.evaluate fuel v).1 = some r) :
    ∃ xs m', (∀ x ∈ xs, x = Move.step) ∧ m.Evaluates v xs r m' ∧
      (m.evaluate fuel v).2 = { m' with status := .proceeding } :=
  completes_of_finish hm ht h

/-- An idle machine that knows some primitives, and a procedure `f`. -/
def withProcedure (words : List Primitive) (body : Array Value) (dispatch : Dispatch) : Machine :=
  let bind (b : Scopes) (p : Primitive) : Scopes := b.set p.word (.action (.primitive p))
  let i := Interp.blank {} (Store.addList {} body)
  .ofInterp { i with setWords := (words.foldl bind {}).set "f" (.list ⟨0⟩) } dispatch

/-- An idle machine with an empty procedure. -/
def idle : Machine := withProcedure [] #[] .inline

/-- A machine whose procedure `f` fails, because it has nothing to put. -/
def failing : Machine := withProcedure [.put] #[.symbol "put"] .inline

end Machine

end WordStack
