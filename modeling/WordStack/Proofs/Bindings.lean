import WordStack.Proofs.Control

/-!
# Bindings after a run

A procedure enters a put-scope and leaves it, whatever its body does and however the body ends. So
a run ends with the put-scopes that it began with, and of these only the innermost can have got new
names. The invariant is `Scoped`: inside of the scopes around the one that was innermost there are
as many more as procedures that have begun. After the run of a procedure that innermost one, too,
is what it was.
-/

namespace WordStack

namespace Scopes

/-! ## Leaving a scope -/

theorem leave_outer (b : Scopes) : b.leave.outer = b.outer.pop := by
  unfold leave
  split
  · rfl
  · next h =>
    have he : b.outer = #[] := Array.back?_eq_none_iff.1 h
    simp [he]

/-- Leaving uncovers the scopes that are left, whatever has been put in the one that is gone. -/
theorem leave_eq {b b' : Scopes} (h : b'.outer = b.outer.push b.innermost) : b'.leave = b := by
  unfold leave
  split
  · next level hl =>
    rw [h, Array.back?_push, Option.some.injEq] at hl
    subst hl
    simp [h]
  · next hl =>
    rw [h, Array.back?_push] at hl
    cases hl

/-- Scopes around the innermost one are found in their places, whatever that one is. -/
theorem scope?_eq {b b' : Scopes} (h : b'.outer = b.outer) {n : Nat} (hn : n + 1 ≠ b.depth) :
    b'.scope? n = b.scope? n := by
  have hn : n ≠ b.outer.size := fun he => hn (by rw [he, depth])
  rw [scope?, scope?, h, if_neg hn, if_neg hn]

end Scopes

/-- The bindings of `i'` are those of `i`, but for names put in the innermost scope and for words
that are set. -/
structure Interp.Isolates (i i' : Interp) : Prop where
  putDepth : i'.putWords.depth = i.putWords.depth
  putScope : ∀ n, n + 1 ≠ i.putWords.depth → i'.putWords.scope? n = i.putWords.scope? n
  setDepth : i'.setWords.depth = i.setWords.depth
  isSet : ∀ name, i.setWords.contains name = true → i'.setWords.contains name = true

theorem Interp.Persists.isolates {i i' : Interp} (h : i.Persists i')
    (hp : i'.putWords.outer = i.putWords.outer) : i.Isolates i' where
  putDepth := by rw [Scopes.depth, Scopes.depth, hp]
  putScope _ hn := Scopes.scope?_eq hp hn
  setDepth := by rw [Scopes.depth, Scopes.depth, h.setOuter]
  isSet := h.isSet

/-! ## Procedures that have begun -/

/-- How many of the tasks end a procedure. -/
def openScopes : List Task → Nat
  | [] => 0
  | .leaveScope :: ts => openScopes ts + 1
  | _ :: ts => openScopes ts

theorem openScopes_cons {t : Task} (ts : List Task) (h : t ≠ .leaveScope) :
    openScopes (t :: ts) = openScopes ts := openScopes.eq_3 _ _ h

theorem Task.Plain.ne_leaveScope {t : Task} (h : t.Plain) : t ≠ .leaveScope := by
  rintro rfl
  exact h

theorem openScopes_plain {more : List Task} (h : ∀ t ∈ more, t.Plain) (ts : List Task) :
    openScopes (more ++ ts) = openScopes ts := by
  induction more with
  | nil => rfl
  | cons t more ih =>
    rw [List.cons_append, openScopes_cons _ (h t (by simp)).ne_leaveScope]
    exact ih fun u hu => h u (by simp [hu])

namespace Control

/-- Inside of the scopes `outer` there is one more for each procedure that has begun. -/
def Scoped (outer : Array ScopeLevel) (k : Control) : Prop :=
  ∃ inner : List ScopeLevel, k.putWords.outer.toList = outer.toList ++ inner ∧
    inner.length = openScopes k.tasks

variable {outer : Array ScopeLevel} {k k' : Control} {after : List Task}

theorem Scoped.of_eq (h : k.Scoped outer) (hp : k'.putWords.outer = k.putWords.outer)
    (ht : openScopes k'.tasks = openScopes k.tasks) : k'.Scoped outer := by
  obtain ⟨inner, h1, h2⟩ := h
  exact ⟨inner, by rw [hp, h1], h2.trans ht.symm⟩

/-- The walk of a procedure is prepared by its scope and the task that ends it. -/
theorem Prepares.scoped (hp : k.Prepares after k') (h : k.Scoped outer) :
    Scoped outer { k' with tasks := after ++ k.tasks } := by
  cases hp with
  | word he ha => exact h.of_eq he (openScopes_plain ha _)
  | procedure =>
    obtain ⟨inner, h1, h2⟩ := h
    refine ⟨inner ++ [k.putWords.innermost], by simp [Scopes.enter, h1], ?_⟩
    simp [openScopes, h2]
  | callback hm => exact h.of_eq rfl (openScopes_plain hm _)

theorem Aftermath.scoped (ha : k.Aftermath k') (h : k.Scoped outer) : k'.Scoped outer := by
  cases ha with
  | plain hp hm => exact h.of_eq hp (openScopes_plain hm _)
  | enter hp _ => exact hp.scoped h
  | refuse hp _ => exact hp.scoped h

theorem Scoped.leave (h : Scoped outer { k with tasks := .leaveScope :: k.tasks }) :
    Scoped outer { k with putWords := k.putWords.leave } := by
  obtain ⟨inner, h1, h2⟩ := h
  have hne : inner ≠ [] := List.ne_nil_of_length_pos (by simp [h2, openScopes])
  refine ⟨inner.dropLast, ?_, ?_⟩
  · rw [Scopes.leave_outer, Array.toList_pop, h1, List.dropLast_append_of_ne_nil hne]
  · rw [List.length_dropLast, h2, openScopes, Nat.add_sub_cancel]

/-- A move begins a procedure with a scope, and leaves that scope when it ends the procedure. -/
theorem Change.scoped (hc : k.Change k') (h : k.Scoped outer) : k'.Scoped outer := by
  cases hc with
  | idle => exact h
  | woken _ => exact h
  | begun _ ht => exact h.of_eq rfl (openScopes_cons _ ht.ne_leaveScope)
  | task ht _ ha => exact ha.scoped (h.of_eq rfl (openScopes_cons _ ht.ne_leaveScope).symm)
  | next v _ => exact h
  | ended _ => exact h
  | leave _ => exact h.leave
  | answer _ hp hm => exact h.of_eq hp (openScopes_plain hm _)
  | caught _ hp hm => exact h.of_eq hp (openScopes_plain hm _)
  | unwind _ hl _ => exact h.of_eq rfl (openScopes_cons _ hl).symm

/-- Where only the end of a procedure is left, nothing is done but that. -/
theorem Change.at_leaveScope (hc : k.Change k') (ht : k.tasks = [.leaveScope])
    (hp : k.phase ≠ .waiting) :
    k' = k ∨ k'.tasks = [] ∧ k'.putWords = k.putWords.leave ∧ k'.phase ≠ .waiting := by
  cases hc with
  | idle => exact .inl rfl
  | woken hw => exact absurd hw hp
  | begun hw _ => exact absurd hw hp
  | task h _ _ => exact absurd (List.cons.inj ht).1 h.ne_leaveScope
  | next v _ => cases ht
  | ended _ => cases ht
  | leave _ => exact .inr ⟨(List.cons.inj ht).2, rfl, hp⟩
  | answer _ _ _ => cases ht
  | caught _ _ _ => cases ht
  | unwind _ hl _ => exact absurd (List.cons.inj ht).1 hl

end Control

namespace Machine

variable {base : List Task} {outer : Array ScopeLevel} {m m' : Machine} {xs : List Move}
  {r : Except EvalError Unit}

/-! ## Runs -/

/-- The machine has the scopes of the procedures that it has begun before the tasks `base`. -/
def Scoped (base : List Task) (outer : Array ScopeLevel) (m : Machine) : Prop :=
  ∃ ts, m.tasks = ts ++ base ∧ (m.control ts).Scoped outer

theorem Follows.scoped (h : Follows base (m.control []) m') :
    m'.Scoped base m.interp.putWords.outer := by
  obtain ⟨ts, ht, ha⟩ := h
  exact ⟨ts, ht, ha.scoped ⟨[], by simp [control], rfl⟩⟩

theorem Scoped.move (h : m.Scoped base outer) (x : Move) (hn : ∀ r, ¬ m.Returned base r) :
    (m.move x).Scoped base outer := by
  obtain ⟨ts, ht, hk⟩ := h
  obtain ⟨tasks, ht', hc⟩ := move_change x ht hn
  exact ⟨tasks, ht', hc.scoped hk⟩

theorem Run.scoped (h : Run base m xs m') (hm : m.Scoped base outer) : m'.Scoped base outer :=
  h.induct hm fun _ x h₁ hn => h₁.move x hn

theorem Scoped.outer_eq (h : m.Scoped base outer) (ht : m.tasks = base) :
    m.interp.putWords.outer = outer := by
  obtain ⟨ts, hts, inner, h1, h2⟩ := h
  obtain rfl : ts = [] := by simpa [ht] using hts
  obtain rfl : inner = [] := List.eq_nil_of_length_eq_zero h2
  exact Array.toList_inj.1 (by simpa [control] using h1)

/-- A run of a word ends with the scopes around the one that was innermost. -/
theorem Completes.isolates {word : Eval Next} (h : m.Completes word xs r m')
    (hp : m.interp.Persists (m.act word).interp)
    (hw : Follows m.tasks (m.control []) (m.act word)) : m.interp.Isolates m'.interp :=
  (hp.trans h.run.persists).isolates ((h.run.scoped hw.scoped).outer_eq h.returned.1)

/-! ## Procedures -/

/-- A procedure runs in a scope inside of the scopes `b`, or it is over and they are back. -/
def InProcedure (base : List Task) (b : Scopes) (m : Machine) : Prop :=
  m.Scoped (.leaveScope :: base) (b.outer.push b.innermost) ∨
    m.interp.putWords = b ∧ ∃ r, m.Returned base r

theorem InProcedure.move {b : Scopes} (h : m.InProcedure base b) (x : Move)
    (hn : ∀ r, ¬ m.Returned base r) : (m.move x).InProcedure base b := by
  rcases h with h | ⟨-, r, hr⟩
  · by_cases hr : ∃ r, m.Returned (.leaveScope :: base) r
    · obtain ⟨r, hr⟩ := hr
      have ho := h.outer_eq hr.1
      have ht : m.tasks = [.leaveScope] ++ base := hr.1
      obtain ⟨tasks, ht, hc⟩ := move_change x ht hn
      obtain hk | ⟨h1, h2, h3⟩ := hc.at_leaveScope rfl hr.phase
      · have htasks : tasks = [.leaveScope] := congrArg Control.tasks hk
        have hputs : (m.move x).interp.putWords = m.interp.putWords := congrArg Control.putWords hk
        refine .inl ⟨[], by rw [ht, htasks]; rfl, [], ?_, rfl⟩
        simp [control, hputs, ho]
      · obtain rfl : tasks = [] := h1
        exact .inr ⟨h2.trans (Scopes.leave_eq ho), returned_of_phase h3 ht⟩
    · exact .inl (h.move x fun r hr' => hr ⟨r, hr'⟩)
  · exact absurd hr (hn r)

theorem enter_inProcedure {b : Scopes} (body : ListId) (hb : m.interp.putWords = b.enter) :
    (m.enter body [.leaveScope]).InProcedure m.tasks b := by
  have hi : ([] : List ScopeLevel).length = 0 := rfl
  have ho : m.interp.putWords.outer.toList = (b.outer.push b.innermost).toList ++ [] := by
    simp [hb, Scopes.enter]
  unfold enter
  rcases m.interp.calls.push body (m.interp.putWords.depth - 1) with ⟨e | _, calls⟩
  · exact .inl ⟨[], rfl, [], ho, hi⟩
  · exact .inl ⟨[.walk body 0], rfl, [], ho, hi⟩

/-- A procedure leaves every put-scope as it was. -/
theorem Completes.putWords_eq {name : String} {body : ListId}
    (h : m.Completes (Interp.resolve (.symbol name)) xs r m')
    (hput : m.interp.putWords.get? name = none)
    (hset : m.interp.setWords.get? name = some (.list body)) :
    m'.interp.putWords = m.interp.putWords := by
  have hact : m.act (Interp.resolve (.symbol name)) =
      { m with interp := { m.interp with putWords := m.interp.putWords.enter } }.enter body
        [.leaveScope] := by
    simp [act, Interp.resolve_procedure hput hset, follow]
  have hrun := h.run
  rw [hact] at hrun
  have hend := hrun.induct (enter_inProcedure body rfl) fun _ x h₁ hn => h₁.move x hn
  rcases hend with hs | ⟨hb, -⟩
  · obtain ⟨ts, ht, -⟩ := hs
    have := congrArg List.length (ht.symm.trans h.returned.1)
    simp at this
    omega
  · exact hb

/-! ## Isolation -/

/-- An evaluation changes the put-scopes in the innermost one alone, forgets no word that was set,
and has as many scopes at the end as before; a procedure does not even change the innermost scope.
The result may be an error. -/
theorem bindings_isolated (m : Machine) :
    (∀ v xs r m', m.Evaluates v xs r m' → m.interp.Isolates m'.interp) ∧
    ∀ name body xs r m', m.interp.putWords.get? name = none →
      m.interp.setWords.get? name = some (.list body) →
      m.Completes (Interp.resolve (.symbol name)) xs r m' →
      m.interp.Isolates m'.interp ∧ m'.interp.putWords = m.interp.putWords := by
  refine ⟨fun v xs r m' h => ?_, fun name body xs r m' hput hset h => ⟨?_, h.putWords_eq hput hset⟩⟩
  · have hv := Interp.edits_start v m.interp
    exact h.isolates (m.act_persists hv.1.persists) (follows_act hv rfl)
  · exact h.isolates (m.act_persists (Interp.resolve_persists _ _)) (follows_resolve _ rfl)

theorem bindings_isolated_of_failing :
    ∃ xs₁ m₁ xs₂ m₂, failing.Evaluates (.symbol "f") xs₁ (.error .stackUnderflow) m₁ ∧
      failing.interp.Isolates m₁.interp ∧
      failing.Completes (Interp.resolve (.symbol "f")) xs₂ (.error .stackUnderflow) m₂ ∧
      m₂.interp.putWords = failing.interp.putWords := by
  have hf : (failing.evaluate 20 (.symbol "f")).1 = some (.error .stackUnderflow) := rfl
  have hp : ((failing.act (Interp.resolve (.symbol "f"))).finish 20).1 =
      some (.error .stackUnderflow) := rfl
  obtain ⟨xs₁, m₁, -, h₁, -⟩ := evaluates_of_evaluate rfl rfl hf
  obtain ⟨xs₂, m₂, -, h₂, -⟩ := completes_of_finish rfl rfl hp
  exact ⟨xs₁, m₁, xs₂, m₂, h₁, (bindings_isolated failing).1 _ _ _ _ h₁, h₂,
    ((bindings_isolated failing).2 "f" ⟨0⟩ _ _ _ rfl rfl h₂).2⟩

end Machine

end WordStack
