import WordStack.Proofs.SparedLists

/-!
# Lists that stay as they are

A list is shared by all who hold it, and still nothing that a program does changes it but the five
members that change their target. Words make new lists where they build one (`word_extends`). Along
a run the programs of its host calls are those that its words have asked for, so a list is spared as
long as no word calls one of the five for it (`Spared.step`), and that is so of all lists that were
there before an evaluation (`untargeted_lists_stay`).
-/

namespace WordStack

theorem Edits.extends {i i' : Interp} (h : Edits i i') : i.store.Extends i'.store :=
  h.keeps (R := fun i i' => i.store.Extends i'.store) (fun i => .refl i.store)
    (fun h₁ h₂ => h₁.trans h₂) fun he => by
      cases he with
      | list values => exact Store.extends_newList _ values
      | _ => exact ⟨fun _ h => h, fun _ _ => rfl⟩

/-! ## Words -/

namespace Machine

variable {T : Nat → Prop} {l : ListId} {s : Store}
  {base : List Task} {m : Machine} {t : Task} {word : Eval Next}

/-- The host call that the next step makes, if it makes one. -/
def nextCall? (m : Machine) : Option HostCall :=
  match m.status, m.tasks with
  | .proceeding, t :: _ => (m.word? t).bind fun word =>
    match (word m.interp).1 with
    | .ok (.call call _) => some call
    | _ => none
  | _, _ => none

/-- The next step calls a member that changes the list. -/
def Mutates (l : ListId) (m : Machine) : Prop := ∃ call, m.nextCall? = some call ∧ call.Mutates l

/-- A word makes lists, and changes none. -/
theorem word_extends (h : m.word? t = some word) (i : Interp) :
    i.store.Extends (word i).2.store := by
  refine word_cases (Q := fun word => i.store.Extends (word i).2.store) h (fun v => ?_)
    fun _ hw => (hw i).1.extends
  obtain ⟨name, body, rfl, -, -, hb⟩ | ⟨he, -⟩ := Interp.resolve_cases v i
  · rw [hb]
    exact .refl _
  · exact he.extends

/-! ## What a task does to the store -/

theorem enter_store (items : ListId) (after : List Task) :
    (m.enter items after).interp.store = m.interp.store := by
  rw [enter_interp]

theorem follow_store (next : Next) : (m.follow next).interp.store = m.interp.store := by
  cases next with
  | done => rfl
  | walk items after => exact enter_store items after
  | pause => rw [follow, pause_interp]
  | write channel message => rw [follow, notify_interp]
  | call call keep => rw [follow, marshal_interp]

theorem act_store (word : Eval Next) :
    (m.act word).interp.store = (word m.interp).2.store := by
  unfold act
  split
  · next next i hi => rw [follow_store, hi]
  · next e i hi => rw [hi]

theorem callback_store (c : Callback) (args : Array Value) (reply : Reply) (serving : Bool) :
    (m.callback c args reply serving).interp.store = m.interp.store := by
  unfold callback
  split
  · rw [enter_store]
  · rw [deliver_interp]

theorem endCallback_store (depth : Nat) (servingBefore : Bool) (reply : Reply)
    (r : Except EvalError (Option Value)) :
    (m.endCallback depth servingBefore reply r).interp.store = m.interp.store := by
  unfold endCallback
  rw [deliver_interp]

theorem member_spares (site : CallSite) {program : HostProgram (Option Value)}
    (h : program.Spares l) :
    m.interp.store.Spares l (m.member site program).interp.store := by
  cases program with
  | done r =>
    simp only [member]
    split <;> exact .refl l _
  | fail e => exact .refl l _
  | read k => exact .refl l _
  | write f k => exact h.1 _
  | call c args k =>
    rw [member, callback_store]
    exact .refl l _
  | invoke c args k =>
    simp only [member, callbackFromMember]
    split
    · exact .refl l _
    · split
      · exact .refl l _
      · split
        · exact .refl l _
        · rw [callback_store]
          exact .refl l _

theorem perform_spares (h : t.Satisfies (HostProgram.Spares l) T) :
    m.interp.store.Spares l (m.perform t).interp.store := by
  have unchanged {m' : Machine} (he : m'.interp.store = m.interp.store) :
      m.interp.store.Spares l m'.interp.store := Store.spares_of_lists_eq (by rw [he])
  have hp := m.performs t
  generalize m.perform t = m' at hp ⊢
  cases hp with
  | word hw =>
    rw [act_store]
    exact (word_extends hw m.interp).spares
  | served => exact unchanged (callback_store _ _ _ _)
  | breaks => exact unchanged (by rw [pause_interp]; rfl)
  | next => exact unchanged rfl
  | ended => exact unchanged rfl
  | left => exact unchanged rfl
  | @answer returns =>
    rw [endCallback_store]
    exact (Interp.edits_callbackResult returns m.interp).1.extends.spares
  | @member site => exact member_spares site h

theorem unwind_store (e : EvalError) (t : Task) :
    (m.unwind e t).interp.store = m.interp.store := by
  unfold unwind
  split
  · rfl
  · exact endCallback_store _ _ _ _
  · rfl

/-! ## Host calls that a task begins -/

/-- No host call is offered to the observer. -/
def OffersNoCall (m : Machine) : Prop := ∀ site call, m.status ≠ .offering (.job site call)

theorem offersNoCall_of_proceeding (h : m.status = .proceeding) : m.OffersNoCall :=
  fun _ _ hs => by cases h.symm.trans hs

section OffersNoCall

variable (h : m.OffersNoCall)

include h

theorem OffersNoCall.enter (items : ListId) (after : List Task) :
    (m.enter items after).OffersNoCall := by
  unfold Machine.enter
  rcases m.interp.calls.push items (m.interp.putWords.depth - 1) with ⟨e | _, calls⟩
  · exact fun _ _ hs => by cases hs
  · exact h

theorem OffersNoCall.notify (e : Event) : (m.notify e).OffersNoCall := by
  unfold Machine.notify queue
  split
  · exact fun _ _ hs => by cases hs
  · split <;> exact h

theorem OffersNoCall.pause (e : Event) : (m.pause e).OffersNoCall := by
  obtain ⟨_, _, _, serving, _, ⟨dispatch, listening, _⟩, _, _, _, _⟩ := m
  cases serving <;> cases listening <;> cases dispatch
  all_goals first
    | exact h
    | exact fun _ _ hs => by cases hs

theorem OffersNoCall.deliver (r : Except EvalError (Option Value)) (reply : Reply) :
    (m.deliver r reply).OffersNoCall := by
  cases reply <;> exact h

theorem OffersNoCall.callback (c : Callback) (args : Array Value) (reply : Reply)
    (serving : Bool) : (m.callback c args reply serving).OffersNoCall := by
  unfold Machine.callback
  split
  · exact OffersNoCall.enter (m := { m with
      interp := { m.interp with stack := ⟨m.interp.stack.values ++ args⟩ }, serving }) h _ _
  · exact h.deliver _ reply

theorem OffersNoCall.member (site : CallSite) (program : HostProgram (Option Value)) :
    (m.member site program).OffersNoCall := by
  cases program with
  | done r =>
    simp only [Machine.member]
    split <;> exact h
  | fail e => exact fun _ _ hs => by cases hs
  | read k => exact h
  | write f k => exact h
  | call c args k => exact h.callback c args _ _
  | invoke c args k =>
    simp only [Machine.member, callbackFromMember]
    split
    · exact h
    · split
      · exact h
      · split
        · exact h
        · exact h.callback c args _ _

end OffersNoCall

theorem offersNoCall_endCallback (depth : Nat) (servingBefore : Bool) (reply : Reply)
    (r : Except EvalError (Option Value)) :
    (m.endCallback depth servingBefore reply r).OffersNoCall := by
  unfold endCallback
  exact (offersNoCall_of_proceeding rfl).deliver r reply

theorem offersNoCall_unwind {e : EvalError} (hs : m.status = .raising e) (t : Task) :
    (m.unwind e t).OffersNoCall := by
  have hnone : m.OffersNoCall := fun _ _ ho => by cases hs.symm.trans ho
  unfold unwind
  split
  · exact hnone
  · exact offersNoCall_endCallback _ _ _ _
  · exact hnone

/-- A host call is offered by the word that makes it. -/
theorem perform_offers (hm : m.status = .proceeding) {site : CallSite} {call : HostCall}
    (h : (m.perform t).status = .offering (.job site call)) :
    ∃ word keep, m.word? t = some word ∧ (word m.interp).1 = .ok (.call call keep) := by
  have hnone := offersNoCall_of_proceeding hm
  have hp := m.performs t
  generalize m.perform t = m' at hp h
  cases hp with
  | @word _ word hw =>
    unfold act at h
    split at h
    · next next i hi =>
      have hnone : { m with interp := i }.OffersNoCall := hnone
      cases next with
      | done => exact absurd h (hnone _ _)
      | walk items after => exact absurd h (hnone.enter items after _ _)
      | pause => exact absurd h (hnone.pause _ _ _)
      | write channel message => exact absurd h (hnone.notify _ _ _)
      | call call' keep =>
        unfold follow marshal at h
        dsimp only at h
        split at h
        · cases h
          exact ⟨word, keep, hw, by rw [hi]⟩
        · exact absurd h (hnone _ _)
    · cases h
  | @served _ r requests =>
    have hnone : ({ m with requests }.before t).OffersNoCall := hnone
    exact absurd h (hnone.callback _ _ _ _ _ _)
  | @breaks v =>
    have hnone : ({ m with gate := { m.gate with stepNext := false } }.before
      (.resolve v)).OffersNoCall := hnone
    exact absurd h (hnone.pause _ _ _)
  | next => exact absurd h (hnone _ _)
  | ended => exact absurd h (hnone _ _)
  | left => exact absurd h (hnone _ _)
  | answer => exact absurd h (offersNoCall_endCallback _ _ _ _ _ _)
  | @member site program => exact absurd h (hnone.member site program _ _)

/-! ## Runs -/

/-- The list is as it is in the store `s`, and the programs of the host calls that have begun, and
of the one that is offered, do not change it. -/
structure Spared (l : ListId) (s : Store) (base : List Task) (m : Machine) : Prop where
  store : s.Spares l m.interp.store
  registry : m.interp.setting.registry = .ofModules [coreModule]
  tasks : ∃ ts, m.tasks = ts ++ base ∧
    ∀ t ∈ ts, t.Satisfies (HostProgram.Spares l) fun _ => True
  offer : ∀ site call, m.status = .offering (.job site call) →
    (m.interp.setting.registry.invoke call).Spares l

theorem nextCall_of_word {ts : List Task} (hs : m.status = .proceeding) (ht : m.tasks = t :: ts)
    (hw : m.word? t = some word) {call : HostCall} {keep : Bool}
    (hcall : (word m.interp).1 = .ok (.call call keep)) : m.nextCall? = some call := by
  simp [nextCall?, hs, ht, hw, hcall]

theorem Spared.unwind {e : EvalError} (h : m.Spared l s base) (hs : m.status = .raising e)
    (ht : t.Satisfies (HostProgram.Spares l) fun _ => True) : (m.unwind e t).Spared l s base := by
  obtain ⟨ts, hts, hall⟩ := h.tasks
  have hleft := unwind_leaves (HostProgram.spares_hereditary l) m e ht
  refine ⟨?_, (m.unwind_persists e t).setting ▸ h.registry, hleft.above hts hall, ?_⟩
  · rw [unwind_store]
    exact h.store
  · exact fun site call hoffer => absurd hoffer (offersNoCall_unwind hs t site call)

theorem Spared.perform (h : m.Spared l s base) (hs : m.status = .proceeding)
    (ht : t.Satisfies (HostProgram.Spares l) fun _ => True)
    (hcall : ∀ word call keep, m.word? t = some word → (word m.interp).1 = .ok (.call call keep) →
      ¬ call.Mutates l) : (m.perform t).Spared l s base := by
  obtain ⟨ts, hts, hall⟩ := h.tasks
  have hkept : m.interp.Persists (m.perform t).interp := m.perform_persists t
  have hspares (word : Eval Next) (call : HostCall) (keep : Bool) (hw : m.word? t = some word)
      (hmade : (word m.interp).1 = .ok (.call call keep)) :
      (m.interp.setting.registry.invoke call).Spares l := by
    rw [h.registry]
    exact Registry.invoke_spares (hcall word call keep hw hmade)
  have hleft := perform_leaves_of_calls (HostProgram.spares_hereditary l) (fun _ _ => trivial) ht
    hspares
  refine ⟨h.store.trans (perform_spares ht), hkept.setting ▸ h.registry, hleft.above hts hall,
    fun site call hoffer => ?_⟩
  obtain ⟨word, keep, hw, hmade⟩ := perform_offers hs hoffer
  rw [hkept.setting]
  exact hspares word call keep hw hmade

theorem Spared.step (h : m.Spared l s base) (hn : ∀ r, ¬ m.Returned base r)
    (hcall : ¬ m.Mutates l) : m.step.Spared l s base := by
  by_cases hs : m.status.phase = .waiting
  · rwa [step_of_waiting hs]
  obtain ⟨ts, ht, hts⟩ := h.tasks
  cases ts with
  | nil =>
    obtain ⟨r, hr⟩ := returned_of_phase hs ht
    exact absurd hr (hn r)
  | cons t ts =>
    obtain ⟨ht', hrest⟩ := List.forall_mem_cons.1 hts
    have htail : { m with tasks := ts ++ base }.Spared l s base :=
      ⟨h.store, h.registry, ⟨ts, rfl, hrest⟩, h.offer⟩
    obtain ⟨e | _, -, hm⟩ := returned_of_phase hs rfl
    · rw [step_of_raising hm ht]
      exact htail.unwind hm ht'
    · rw [step_of_proceeding hm ht]
      refine htail.perform hm ht' fun word call keep hw hmade hmutates => ?_
      exact hcall ⟨call, nextCall_of_word hm ht hw hmade, hmutates⟩

/-- A host call that is offered begins. -/
theorem Spared.begins (h : m.Spared l s base) {site : CallSite} {call : HostCall}
    (hs : m.status = .offering (.job site call)) (site' : CallSite) :
    ({ m with status := .proceeding }.before
      (.member site' (m.interp.setting.registry.invoke call))).Spared l s base := by
  obtain ⟨ts, ht, hts⟩ := h.tasks
  refine ⟨h.store, h.registry, ⟨_ :: ts, by simp only [before, ht]; rfl, ?_⟩,
    fun _ _ hoffer => by cases hoffer⟩
  exact List.forall_mem_cons.2 ⟨h.offer site call hs, hts⟩

theorem Spared.move (h : m.Spared l s base) (hn : ∀ r, ¬ m.Returned base r) (x : Move)
    (hx : x = .step → ¬ m.Mutates l) : (m.move x).Spared l s base := by
  have quiet {m' : Machine} (hi : m'.interp = m.interp) (ht : m'.tasks = m.tasks)
      (hnone : m'.OffersNoCall) : m'.Spared l s base :=
    ⟨hi ▸ h.store, hi ▸ h.registry, ht ▸ h.tasks, fun site call hs => absurd hs (hnone site call)⟩
  cases x with
  | step => exact h.step hn (hx rfl)
  | request r => exact ⟨h.store, h.registry, h.tasks, h.offer⟩
  | resume stepNext =>
    refine ⟨h.store, h.registry, h.tasks, fun site call hs => h.offer site call ?_⟩
    simp only [Machine.move, resume] at hs
    split at hs
    · cases hs
    · exact hs
  | receive =>
    simp only [Machine.move, receive, take]
    split
    · exact ⟨h.store, h.registry, h.tasks, h.offer⟩
    · split
      · refine quiet rfl rfl ?_
        dsimp only
        split <;> exact fun _ _ hs => by cases hs
      · next site call hs => exact h.begins hs _
      · exact h
  | dropObserver =>
    simp only [Machine.move, dropObserver]
    split
    · exact quiet rfl rfl (offersNoCall_of_proceeding rfl)
    · next site call hs =>
      exact Spared.begins (m := { m with outbox := { m.outbox with listening := false } })
        ⟨h.store, h.registry, h.tasks, h.offer⟩ hs _
    · exact ⟨h.store, h.registry, h.tasks, h.offer⟩

theorem Run.sparesList {m' : Machine} {xs : List Move} (h : Run base m xs m')
    (hm : m.Spared l s base) (hx : Avoids (Mutates l) m xs) : m'.Spared l s base := by
  induction h with
  | refl => exact hm
  | @snoc m₁ xs x hrun hn ih =>
    obtain ⟨hxs, hlast⟩ := (avoids_snoc x).1 hx
    rw [← hrun.eq_foldl] at hlast
    exact (ih hxs).move hn x hlast

/-- A value is walked, or a callback is run for someone outside. -/
theorem spared_start {start : Machine} (hreg : m.interp.setting.registry = .ofModules [coreModule])
    (hm : m.status = .proceeding)
    (hstart : (∃ v, start = m.act (Interp.walkValue v [])) ∨
      ∃ c args ticket serving, start = m.callback c args (.toCaller ticket) serving) :
    start.Spared l m.interp.store m.tasks := by
  obtain ⟨v, rfl⟩ | ⟨c, args, ticket, serving, rfl⟩ := hstart
  · obtain ⟨hedits, -⟩ := Interp.edits_start v m.interp
    obtain ⟨i, items, hw⟩ : ∃ i items,
        Interp.walkValue v [] m.interp = (.ok (.walk items []), i) := by
      cases v <;> exact ⟨_, _, rfl⟩
    have hact : m.act (Interp.walkValue v []) = { m with interp := i }.enter items [] := by
      rw [act, hw]
      rfl
    rw [hw] at hedits
    have hnone : { m with interp := i }.OffersNoCall := offersNoCall_of_proceeding hm
    rw [hact]
    refine ⟨?_, ?_, ?_, fun site call hs => absurd hs (hnone.enter items [] site call)⟩
    · rw [enter_store]
      exact hedits.extends.spares
    · rw [(enter_persists _ items []).setting, ← hreg, hedits.persists.setting]
    · exact (enter_leaves { m with interp := i } items (T := fun _ => True) (by simp)).tasks
  · have hnone := offersNoCall_of_proceeding hm
    have hreply : (Reply.toCaller ticket).Satisfies (HostProgram.Spares l) fun _ => True := trivial
    refine ⟨?_, ?_, ?_, fun site call hs => absurd hs (hnone.callback c args _ serving site call)⟩
    · rw [callback_store]
      exact .refl l _
    · rw [(m.callback_persists c args _ serving).setting, hreg]
    · exact (callback_leaves (HostProgram.spares_hereditary l) m c args serving hreply).tasks

/-- Where the core module is the only one, an evaluation changes none of the lists that were there
before, whether it fails or not and however far it has come, unless it calls one of the members
`Add`, `Insert`, `RemoveAt`, `Clear` and the `Item` of two arguments for the list. -/
theorem untargeted_lists_stay {m start m' : Machine} {xs : List Move}
    (hreg : m.interp.setting.registry = .ofModules [coreModule]) (hm : m.status = .proceeding)
    (hstart : (∃ v, start = m.act (Interp.walkValue v [])) ∨
      ∃ c args ticket serving, start = m.callback c args (.toCaller ticket) serving)
    (h : Run m.tasks start xs m') :
    ∀ l, m.interp.store.Live l → Avoids (Mutates l) start xs →
      m'.interp.store.items l = m.interp.store.items l := fun _ hl hx =>
  ((h.sparesList (spared_start hreg hm hstart) hx).store hl).2

/-- No step of the row makes a host call with the list as its target. -/
def untargeted (l : ListId) (m : Machine) : List Move → Bool
  | [] => true
  | x :: xs => (m.nextCall?.all fun call => call.target.all fun v => v.list? != some l) &&
    untargeted l (m.move x) xs

theorem avoids_of_untargeted {xs : List Move} (h : m.untargeted l xs = true) :
    Avoids (Mutates l) m xs := by
  induction xs generalizing m with
  | nil => trivial
  | cons x xs ih =>
    obtain ⟨hcall, hxs⟩ := Bool.and_eq_true_iff.1 h
    refine ⟨?_, ih hxs⟩
    rintro - ⟨call, hnext, -, htarget, -⟩
    simp [hnext, htarget, Value.list?] at hcall

/-- A program of its own that adds the number of one list to another one. -/
def adding : Machine :=
  let m := withProcedure [.execute] #[.integer 7] .inline
  let program := #[.list ⟨2⟩, .list ⟨0⟩, .text "Add", .symbol "execute"]
  { m with interp := { m.interp with store := m.interp.store.addList program } }

theorem untargeted_lists_stay_of_adding : ∃ m',
    Run [] (adding.act (Interp.walkValue (.list ⟨3⟩) [])) (.replicate 16 .step) m' ∧
      m'.outcome?.isSome = true ∧ (m'.interp.store.items ⟨2⟩).size = 1 ∧
      m'.interp.store.items ⟨0⟩ = adding.interp.store.items ⟨0⟩ ∧
      m'.interp.store.items ⟨3⟩ = adding.interp.store.items ⟨3⟩ := by
  have hrun : Run [] (adding.act (Interp.walkValue (.list ⟨3⟩) [])) (.replicate 16 .step) _ :=
    run_of_stopsInTime (by decide +kernel)
  have hstay := untargeted_lists_stay (m := adding) rfl rfl (.inl ⟨.list ⟨3⟩, rfl⟩) hrun
  exact ⟨_, hrun, by decide +kernel, by decide +kernel,
    hstay ⟨0⟩ (by decide) (avoids_of_untargeted (by decide +kernel)),
    hstay ⟨3⟩ (by decide) (avoids_of_untargeted (by decide +kernel))⟩

end Machine

end WordStack
