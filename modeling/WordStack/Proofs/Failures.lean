import WordStack.Proofs.Inheritance

/-!
# Failures that are not lost

Where members hand on the failures of their callbacks, a failure keeps its root cause on its way
out: it is raised and drops one task after the other, a callback hands it to the member that ran it,
and the member raises it again. `Doomed` says where it can be. A run on which there has been such a
failure ends with it, unless the callback was one of a caller outside, who has it in his answer
then: `Doomed.reports`. So a run that ends well has been spared all the way, if nobody outside has
asked for callbacks, or nobody has been told of such a failure (`Evaluates.spared`).
-/

namespace WordStack.Machine

/-- Since there were the answers `old`, someone outside has been told of the failure. -/
def Tells (old : List (Nat × Except EvalError (Option Value))) (m : Machine) (e : EvalError) :
    Prop :=
  ∃ new ticket, m.answers = old ++ new ∧ (ticket, .error e) ∈ new

/-- Nobody outside asks for a callback before the moves are made, or while. -/
def Unasked (m : Machine) (xs : List Move) : Prop := m.requests = [] ∧ ∀ r, .request r ∉ xs

/-- Above the base a failure is on its way, with a root cause of the kind, or someone outside has
been told of one since there were the answers `old`. -/
inductive Doomed (kind : EvalError → Prop) (old : List (Nat × Except EvalError (Option Value)))
    (base : List Task) (m : Machine) : Prop where
  | raised {e : EvalError} : m.status = .raising e → kind e.rootCause → Doomed kind old base m
  /-- A callback has come to its end, but its result cannot be taken. -/
  | misanswered {returns : Option HostType} {depth : Nat} {servingBefore : Bool} {reply : Reply}
      {ts : List Task} {e : EvalError} : m.status = .proceeding →
      m.tasks = .callback returns depth servingBefore reply :: (ts ++ base) →
      (Interp.callbackResult returns m.interp).1 = .error e → kind e.rootCause →
      Doomed kind old base m
  /-- A member has been told, and is about to fail. -/
  | handed {site : CallSite} {program : HostProgram (Option Value)} {ts : List Task}
      {root : EvalError} : m.status = .proceeding →
      m.tasks = .member site program :: (ts ++ base) → program.FailsWith root → kind root →
      Doomed kind old base m
  /-- Before the member fails, a callback is served for someone outside. -/
  | served {site : CallSite} {program : HostProgram (Option Value)} {above ts : List Task}
      {returns : Option HostType} {depth ticket : Nat} {servingBefore : Bool} {root : EvalError} :
      m.tasks = above ++ .callback returns depth servingBefore (.toCaller ticket) ::
        .member site program :: (ts ++ base) →
      program.FailsWith root → kind root → Doomed kind old base m
  | told {e : EvalError} : m.Tells old e → kind e.rootCause → Doomed kind old base m

variable {kind : EvalError → Prop} {old : List (Nat × Except EvalError (Option Value))}
  {base ts : List Task} {m m' : Machine} {T : Nat → Prop}

/-! ## Where a failure goes -/

/-- A callback that ends with a failure gives it to the member, or to the caller outside. -/
theorem doomed_endCallback {depth : Nat} {servingBefore : Bool} {reply : Reply} {e : EvalError}
    (ht : m.tasks = ts ++ base) (hold : old <+: m.answers)
    (hreply : reply.Satisfies HostProgram.HandsOn T) (he : kind e.rootCause) :
    Doomed kind old base (m.endCallback depth servingBefore reply (.error e)) := by
  cases reply with
  | toMember site k =>
    obtain ⟨p, hp, hk⟩ := hreply
    have htasks : (m.endCallback depth servingBefore (.toMember site k) (.error e)).tasks =
        .member site (k (.error e)) :: (ts ++ base) := by
      simp [endCallback, deliver, before, ht]
    exact .handed rfl htasks (hp.failsWith hk e) he
  | toCaller ticket =>
    obtain ⟨new, hnew⟩ := hold
    have hanswers : (m.endCallback depth servingBefore (.toCaller ticket) (.error e)).answers =
        old ++ (new ++ [(ticket, .error e)]) := by
      simp [endCallback, deliver, ← hnew]
    have hgiven : (ticket, .error e) ∈ new ++ [(ticket, .error e)] := by simp
    exact .told ⟨_, ticket, hanswers, hgiven⟩ he

/-- A member that has been told of a failure goes on to raise it. -/
theorem doomed_member {site : CallSite} {program : HostProgram (Option Value)} {root : EvalError}
    (hs : m.status = .proceeding) (ht : m.tasks = ts ++ base) (hp : program.FailsWith root)
    (hroot : kind root) : Doomed kind old base (m.member site program) := by
  cases program with
  | fail e =>
    cases e with
    | eval e =>
      obtain rfl : e.rootCause = root := hp
      exact .raised (e := .host site.signature (.eval e)) rfl hroot
    | _ => exact hp.elim
  | read k =>
    have htasks : (m.member site (.read k)).tasks =
        .member site (k m.interp.store) :: (ts ++ base) := by
      simp [member, before, ht]
    exact .handed hs htasks (hp m.interp.store) hroot
  | write f p =>
    have htasks : (m.member site (.write f p)).tasks = .member site p :: (ts ++ base) := by
      simp [member, before, ht]
    exact .handed hs htasks hp hroot
  | done | call | invoke => exact hp.elim

theorem enter_tasks (m : Machine) (items : ListId) (after : List Task) :
    ∃ above, (m.enter items after).tasks = above ++ (after ++ m.tasks) := by
  unfold enter
  rcases m.interp.calls.push items (m.interp.putWords.depth - 1) with ⟨_ | _, calls⟩
  · exact ⟨[], rfl⟩
  · exact ⟨[.walk items 0], rfl⟩

/-- A request that comes in before is served first. -/
theorem doomed_serve {site : CallSite} {program : HostProgram (Option Value)} {root : EvalError}
    {r : Request} (hs : m.status = .proceeding)
    (ht : m.tasks = .member site program :: (ts ++ base)) (hp : program.FailsWith root)
    (hroot : kind root) : Doomed kind old base (m.serve r) := by
  unfold serve callback
  split
  · let last := Task.callback r.callback.signature.returns m.interp.calls.depth m.serving
      (.toCaller r.ticket)
    let stack : OperandStack := ⟨m.interp.stack.values ++ r.args⟩
    obtain ⟨above, habove⟩ := enter_tasks
      { m with interp := { m.interp with stack }, serving := true } r.callback.body [last]
    have htasks : above ++ ([last] ++ m.tasks) =
        above ++ last :: .member site program :: (ts ++ base) := by
      rw [ht]
      rfl
    exact .served (habove.trans htasks) hp hroot
  · exact .handed hs ht hp hroot

/-! ## Moves -/

/-- Where the machine does not wait, nobody but itself makes it go on. -/
theorem move_of_not_waiting (hs : m.status.phase ≠ .waiting) {x : Move} (hx : x ≠ .step) :
    (m.move x).tasks = m.tasks ∧ (m.move x).status = m.status ∧ (m.move x).interp = m.interp := by
  obtain ⟨_, _, status, _, _, _, _, _, _, _⟩ := m
  rcases status with _ | e | _ | o
  · cases x with
    | step => exact absurd rfl hx
    | receive =>
      simp only [move, receive, take]
      split <;> exact ⟨rfl, rfl, rfl⟩
    | _ => exact ⟨rfl, rfl, rfl⟩
  · cases x with
    | step => exact absurd rfl hx
    | receive =>
      simp only [move, receive, take]
      split <;> exact ⟨rfl, rfl, rfl⟩
    | _ => exact ⟨rfl, rfl, rfl⟩
  · exact absurd rfl hs
  · exact absurd rfl hs

theorem Doomed.unwind {e : EvalError} {t : Task} (hs : m.status = .raising e)
    (he : kind e.rootCause) (ht : m.tasks = ts ++ base) (hold : old <+: m.answers)
    (htask : t.Satisfies HostProgram.HandsOn T) : Doomed kind old base (m.unwind e t) := by
  cases t with
  | callback returns depth servingBefore reply => exact doomed_endCallback ht hold htask he
  | _ => exact .raised hs he

/-- What someone has been told he has been told for good. -/
theorem Tells.move {e : EvalError} (h : m.Tells old e) (x : Move) : (m.move x).Tells old e := by
  obtain ⟨new, ticket, ha, hmem⟩ := h
  obtain ⟨more, hmore⟩ := m.move_answers x
  rw [ha, List.append_assoc] at hmore
  exact ⟨new ++ more, ticket, hmore.symm, List.mem_append_left more hmem⟩

theorem Doomed.served_move {site : CallSite} {program : HostProgram (Option Value)}
    {above : List Task} {returns : Option HostType} {depth ticket : Nat} {servingBefore : Bool}
    {root : EvalError}
    (ht : m.tasks = above ++ .callback returns depth servingBefore (.toCaller ticket) ::
      .member site program :: (ts ++ base))
    (hp : program.FailsWith root) (hroot : kind root) (x : Move) :
    Doomed kind old base (m.move x) := by
  by_cases hret : ∃ r, m.Returned (.callback returns depth servingBefore (.toCaller ticket) ::
      .member site program :: (ts ++ base)) r
  · obtain ⟨r, hr⟩ := hret
    by_cases hx : x = .step
    · subst hx
      cases r with
      | error e =>
        rw [move, step_of_raising hr.2 hr.1]
        exact .handed rfl rfl hp hroot
      | ok u =>
        rw [move, step_of_proceeding hr.2 hr.1, perform]
        rcases Interp.callbackResult returns m.interp with ⟨r, i⟩
        exact .handed rfl rfl hp hroot
    · obtain ⟨htasks, -, -⟩ := move_of_not_waiting hr.phase hx
      exact .served (htasks.trans ht) hp hroot
  · obtain ⟨above', htasks, -⟩ := move_change x ht fun r hr => hret ⟨r, hr⟩
    exact .served htasks hp hroot

theorem Doomed.step (h : Doomed kind old base m) (hi : m.Inherits HostProgram.HandsOn T base)
    (hold : old <+: m.answers) (hn : ∀ r, ¬ m.Returned base r) : Doomed kind old base m.step := by
  cases h with
  | raised hs he =>
    obtain ⟨ts, ht, hts⟩ := hi.tasks
    cases ts with
    | nil => exact absurd ⟨ht, hs⟩ (hn (.error _))
    | cons t ts =>
      rw [step_of_raising hs ht]
      exact Doomed.unwind hs he rfl hold (List.forall_mem_cons.1 hts).1
  | @misanswered returns depth servingBefore reply ts e hs ht hresult he =>
    obtain ⟨ts', ht', hts'⟩ := hi.tasks
    obtain rfl : ts' = .callback returns depth servingBefore reply :: ts :=
      List.append_cancel_right (ht'.symm.trans ht)
    rw [step_of_proceeding hs ht, perform]
    rcases hr : Interp.callbackResult returns m.interp with ⟨r, i⟩
    rw [hr] at hresult
    obtain rfl : r = .error e := hresult
    exact doomed_endCallback rfl hold (List.forall_mem_cons.1 hts').1 he
  | @handed site program ts root hs ht hp hroot =>
    rw [step_of_proceeding hs ht, perform]
    split
    · exact doomed_serve hs rfl hp hroot
    · exact doomed_member hs rfl hp hroot
  | served ht hp hroot => exact Doomed.served_move ht hp hroot .step
  | told h he => exact .told (h.move .step) he

/-- Such a failure goes on to the end, whatever is done to the machine. -/
theorem Doomed.move (h : Doomed kind old base m) (hi : m.Inherits HostProgram.HandsOn T base)
    (hold : old <+: m.answers) (hn : ∀ r, ¬ m.Returned base r) (x : Move) :
    Doomed kind old base (m.move x) := by
  by_cases hx : x = .step
  · subst hx
    exact h.step hi hold hn
  have kept (hs : m.status.phase ≠ .waiting) := move_of_not_waiting hs hx
  cases h with
  | raised hs he =>
    obtain ⟨-, hstatus, -⟩ := kept (by simp [hs, Status.phase])
    exact .raised (hstatus.trans hs) he
  | misanswered hs ht hresult he =>
    obtain ⟨htasks, hstatus, hinterp⟩ := kept (by simp [hs, Status.phase])
    exact .misanswered (hstatus.trans hs) (htasks.trans ht) (hinterp ▸ hresult) he
  | handed hs ht hp hroot =>
    obtain ⟨htasks, hstatus, -⟩ := kept (by simp [hs, Status.phase])
    exact .handed (hstatus.trans hs) (htasks.trans ht) hp hroot
  | served ht hp hroot => exact Doomed.served_move ht hp hroot x
  | told h he => exact .told (h.move x) he

/-! ## Runs -/

variable {r : Except EvalError Unit} {xs : List Move}

/-- What has come to its end has failed so, or someone outside has been told. -/
theorem Doomed.reports (h : Doomed kind old base m) (hr : m.Returned base r) :
    (∃ e, r = .error e ∧ kind e.rootCause) ∨ ∃ e, m.Tells old e ∧ kind e.rootCause := by
  have above (us ts : List Task) {t : Task} (ht : m.tasks = us ++ t :: (ts ++ base)) : False := by
    have hlength := congrArg List.length (hr.1.symm.trans ht)
    simp only [List.length_append, List.length_cons] at hlength
    omega
  cases h with
  | @raised e hs he =>
    obtain ⟨e', rfl⟩ : ∃ e', r = .error e' := by
      cases r with
      | error e' => exact ⟨e', rfl⟩
      | ok u => cases hs.symm.trans hr.2
    obtain rfl := Status.raising.inj (hs.symm.trans hr.2)
    exact .inl ⟨e, rfl, he⟩
  | misanswered _ ht _ _ => exact (above [] _ ht).elim
  | handed _ ht _ _ => exact (above [] _ ht).elim
  | @served site program us ts _ _ _ _ _ ht =>
    exact (above us (.member site program :: ts) ht).elim
  | told htold he => exact .inr ⟨_, htold, he⟩

/-- Where there is no failure in the end, there has been none on the way. -/
theorem Run.spared (h : Run base m xs m')
    (hi : m.Inherits HostProgram.HandsOn (fun _ => True) base) (hold : old <+: m.answers)
    (hend : ¬ Doomed kind old base m') :
    Throughout (fun m₁ => ¬ Doomed kind old base m₁) m xs := by
  induction h with
  | refl => exact hend
  | @snoc m₁ xs x hrun hn ih =>
    rw [throughout_snoc, ← hrun.eq_foldl]
    refine ⟨ih fun hd => hend ?_, hend⟩
    obtain ⟨hi₁, ha⟩ := hrun.inherits HostProgram.handsOn_hereditary hi fun _ _ => trivial
    exact hd.move hi₁ (hold.trans ha.isPrefix) hn x

/-- Who has not asked is not told of anything. -/
theorem Evaluates.tells_none {v : Value} (h : m.Evaluates v xs r m')
    (hask : m.Unasked xs) (e : EvalError) : ¬ m'.Tells m.answers e := by
  obtain ⟨hi, ha⟩ := act_inherits (T := fun _ => False) HostProgram.hereditary_true
    m.interp.setting.registry.satisfies_true (by simp [hask.1]) (Interp.edits_start v)
  obtain ⟨-, ha'⟩ := h.run.inherits HostProgram.hereditary_true hi fun r hr => hask.2 r hr
  obtain ⟨given, heq, hnobody⟩ := ha.trans ha'
  rintro ⟨new, ticket, heq', hmem⟩
  obtain rfl : new = given := List.append_cancel_left (heq'.symm.trans heq)
  exact hnobody _ hmem

/-- Where nobody outside is told of a failure of the kind, for nobody asks for callbacks or they do
not fail so, an evaluation that does not end with one has met none. -/
theorem Evaluates.spared {v : Value} (kind : EvalError → Prop) (h : m.Evaluates v xs r m')
    (hreg : m.interp.setting.registry.HandsOn) (hr : ∀ e, r = .error e → ¬ kind e.rootCause)
    (hout : m.Unasked xs ∨ ∀ e, m'.Tells m.answers e → ¬ kind e.rootCause) :
    Throughout (fun m₁ => ¬ Doomed kind m.answers m.tasks m₁)
      (m.act (Interp.walkValue v [])) xs := by
  obtain ⟨hi, ha⟩ := act_inherits (T := fun _ => True) HostProgram.handsOn_hereditary hreg
    (fun _ _ => trivial) (Interp.edits_start v)
  refine h.run.spared hi ha.isPrefix fun hd => ?_
  obtain ⟨e, he, hkind⟩ | ⟨e, he, hkind⟩ := hd.reports h.returned
  · exact hr e he hkind
  · exact hout.elim (fun hask => h.tells_none hask e he) fun htold => htold e he hkind

end WordStack.Machine
