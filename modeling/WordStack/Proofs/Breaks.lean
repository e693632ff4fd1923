import WordStack.Proofs.Performing

/-!
# Which words pause a run

The primitive `break` pauses the run, and no other word does: neither the other primitives nor what
words have left to be done. So an element pauses the run exactly where it is a name for `break`
(`resolve_of_breaksAt`, `resolve_ne_pause`).
-/

namespace WordStack

/-- The word does not pause the run, wherever it acts. -/
def NeverPauses (word : Eval Next) : Prop := ∀ i, (word i).1 ≠ .ok .pause

namespace NeverPauses

variable {α : Type}

theorem bind {x : Eval α} {f : α → Eval Next} (hf : ∀ a, NeverPauses (f a)) :
    NeverPauses (x >>= f) := by
  intro i
  rw [Interp.bind_apply]
  split
  · next a i' _ => exact hf a i'
  · exact fun h => by cases h

theorem pure {next : Next} (h : next ≠ .pause) : NeverPauses (pure next) :=
  fun _ hp => h (Except.ok.inj hp)

theorem throw (e : EvalError) : NeverPauses (throw e) := fun _ hp => by cases hp

end NeverPauses

namespace Interp

/-! ## Words -/

theorem mismatch_ne_pause (expected : String) (found : Value) :
    NeverPauses (mismatch expected found) :=
  .bind fun _ => .throw _

theorem walkValue_ne_pause (v : Value) (after : List Task) : NeverPauses (walkValue v after) :=
  .bind fun _ => .pure (by simp)

theorem thenDone_ne_pause (act : Eval Unit) : NeverPauses (thenDone act) :=
  .bind fun _ => .pure (by simp)

theorem branch_ne_pause : NeverPauses branch :=
  .bind fun _ => .bind fun _ => walkValue_ne_pause _ _

theorem loop_ne_pause : NeverPauses loop :=
  .bind fun _ => .bind fun _ => walkValue_ne_pause _ _

theorem branchOn_ne_pause (body : Value) : NeverPauses (branchOn body) := by
  refine .bind fun b => ?_
  split
  · exact walkValue_ne_pause _ _
  · exact .pure (by simp)

theorem loopOn_ne_pause (condition body : Value) : NeverPauses (loopOn condition body) := by
  refine .bind fun b => ?_
  split
  · exact walkValue_ne_pause _ _
  · exact .pure (by simp)

theorem countAbove_ne_pause (height : Nat) : NeverPauses (countAbove height) :=
  .bind fun _ => .bind fun _ => .pure (by simp)

theorem evaluateAndSplit_ne_pause (after : List Task) : NeverPauses (evaluateAndSplit after) :=
  .bind fun _ => .bind fun _ => .bind fun _ => .pure (by simp)

theorem executeWith_ne_pause (member : String) (count : Nat) :
    NeverPauses (executeWith member count) := by
  refine .bind fun args => .bind fun (subject, force) => .bind fun i => ?_
  split
  · exact .bind fun _ => .bind fun _ => .pure (by simp)
  · exact .bind fun _ => .pure (by simp)

theorem execute_ne_pause : NeverPauses execute := by
  refine .bind fun member => .bind fun top => ?_
  split
  · exact evaluateAndSplit_ne_pause _
  · exact executeWith_ne_pause _ _

theorem executeCounted_ne_pause (member : String) : NeverPauses (executeCounted member) :=
  .bind fun _ => executeWith_ne_pause _ _

theorem invoke_ne_pause : NeverPauses invoke := by
  refine .bind fun kind => .bind fun binding => .bind fun member => .bind fun typeName => ?_
  refine .bind fun module => .bind fun count => .bind fun args => ?_
  dsimp only
  split <;> exact .bind fun _ => .bind fun _ => .bind fun _ => .pure (by simp)

theorem createDelegate_ne_pause : NeverPauses createDelegate := by
  refine .bind fun top => ?_
  split
  · refine .bind fun type => .bind fun i => ?_
    split
    · exact .bind fun _ => .pure (by simp)
    · exact mismatch_ne_pause _ _
  · exact evaluateAndSplit_ne_pause _

theorem delegateCounted_ne_pause : NeverPauses delegateCounted :=
  .bind fun _ => .bind fun _ => .bind fun _ => .bind fun _ => .bind fun _ => .pure (by simp)

theorem output_ne_pause (channel : OutputChannel) : NeverPauses (output channel) :=
  .bind fun _ => .bind fun _ => .pure (by simp)

theorem trace_ne_pause : NeverPauses trace := .bind fun _ => .bind fun _ => .pure (by simp)

theorem primitive_ne_pause {p : Primitive} (h : p ≠ .pause) : NeverPauses (primitive p) := by
  cases p with
  | pause => exact absurd rfl h
  | branch => exact branch_ne_pause
  | loop => exact loop_ne_pause
  | evaluate => exact .bind fun _ => walkValue_ne_pause _ _
  | evaluateAndSplit => exact evaluateAndSplit_ne_pause _
  | execute => exact execute_ne_pause
  | invoke => exact invoke_ne_pause
  | createDelegate => exact createDelegate_ne_pause
  | output => exact output_ne_pause _
  | display => exact output_ne_pause _
  | trace => exact trace_ne_pause
  | _ => exact thenDone_ne_pause _

theorem perform_ne_pause {action : Action} (h : action ≠ .primitive .pause) :
    NeverPauses (perform action) := by
  cases action with
  | primitive p => exact primitive_ne_pause fun hp => h (congrArg Action.primitive hp)
  | operator op => exact thenDone_ne_pause _
  | convert type => exact thenDone_ne_pause _

/-! ## Elements -/

/-- The element is a name for `break`: it is set to that primitive, and nothing is put under it. -/
def breaksAt (i : Interp) : Value → Bool
  | .symbol name =>
    match i.putWords.get? name, i.setWords.get? name with
    | none, some (.action (.primitive .pause)) => true
    | _, _ => false
  | _ => false

variable {i : Interp} {v : Value}

/-- A break pauses the run and does nothing else. -/
theorem resolve_of_breaksAt (h : i.breaksAt v = true) : resolve v i = (.ok .pause, i) := by
  unfold breaksAt at h
  split at h
  · next name =>
    split at h
    · next hput hset =>
      simp only [resolve, bind_apply, show (get : Eval Interp) i = (.ok i, i) from rfl, hput, hset]
      rfl
    · cases h
  · cases h

theorem resolve_ne_pause (h : i.breaksAt v = false) : (resolve v i).1 ≠ .ok .pause := by
  unfold resolve
  split
  · next name =>
    rw [bind_apply, show (get : Eval Interp) i = (.ok i, i) from rfl]
    refine (?_ : NeverPauses _) i
    split
    · exact thenDone_ne_pause _
    · next hput =>
      split
      · next action hset =>
        refine perform_ne_pause ?_
        rintro rfl
        simp [breaksAt, hput, hset] at h
      · exact .bind fun _ => .pure (by simp)
      · exact walkValue_ne_pause _ _
      · exact thenDone_ne_pause _
  · exact thenDone_ne_pause _ i

end Interp

/-! ## Tasks -/

/-- The element that a task is to process. -/
def Task.subject? : Task → Option Value
  | .element v | .resolve v => some v
  | _ => none

namespace Machine

variable {m : Machine} {t : Task} {word : Eval Next}

/-- Where the word is that of an element, it is the element that is processed. -/
theorem word_of_subject {v : Value} (h : m.word? t = some word) (hv : t.subject? = some v) :
    word = Interp.resolve v := by
  cases t with
  | element u =>
    obtain rfl := Option.some.inj hv
    exact (element_of_word h).1
  | resolve u =>
    obtain rfl := Option.some.inj hv
    exact (Option.some.inj h).symm
  | _ => cases hv

/-- What words have left to be done does not pause the run. -/
theorem word_ne_pause (h : m.word? t = some word) (hv : t.subject? = none) :
    NeverPauses word := by
  cases t with
  | branch body => exact Option.some.inj h ▸ Interp.branchOn_ne_pause body
  | loop condition body => exact Option.some.inj h ▸ Interp.loopOn_ne_pause condition body
  | again condition body => exact Option.some.inj h ▸ Interp.walkValue_ne_pause condition _
  | countAbove height => exact Option.some.inj h ▸ Interp.countAbove_ne_pause height
  | execute name => exact Option.some.inj h ▸ Interp.executeCounted_ne_pause name
  | makeDelegate => exact Option.some.inj h ▸ Interp.delegateCounted_ne_pause
  | element | resolve => cases hv
  | walk | leaveScope | callback | member => cases h

end Machine

end WordStack
