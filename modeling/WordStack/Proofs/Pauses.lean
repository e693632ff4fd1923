import WordStack.Proofs.Control

/-!
# Where a run pauses

Words act only for an element of a walk: behind a task that lets a word act there are at most other
such tasks before the walk itself is next (`Placed`). So where a run pauses, the walk of the element
at which it pauses is next (`Resting`), and no scope is left and no callback ended in between. What
others see of a run changes only where it pauses: `move_shows`.
-/

namespace WordStack

/-! ## Tasks that let words act -/

/-- The processing of an element, or what a word has left to be done. -/
def Task.Acts : Task → Prop
  | .walk _ _ | .leaveScope | .callback _ _ _ _ | .member _ _ => False
  | _ => True

theorem Task.FollowsUp.acts {t : Task} (h : t.FollowsUp) : t.Acts := by
  cases t <;> trivial

theorem Task.Acts.plain {t : Task} (h : t.Acts) : t.Plain := by
  cases t <;> trivial

/-- A walk is next, after tasks that let words act. -/
def Resting (ts : List Task) : Prop :=
  ∃ us items p vs, ts = us ++ .walk items p :: vs ∧ ∀ u ∈ us, Task.Acts u

/-- Behind each task that lets a word act is the walk of the element for which it acts. -/
def Placed : List Task → Prop
  | [] => True
  | t :: ts => (t.Acts → Resting ts) ∧ Placed ts

section Placed

variable {t : Task} {ts more : List Task}

theorem resting_walk (items : ListId) (p : Nat) (ts : List Task) :
    Resting (.walk items p :: ts) := ⟨[], items, p, ts, rfl, by simp⟩

theorem Resting.cons (ht : t.Acts) (h : Resting ts) : Resting (t :: ts) := by
  obtain ⟨us, items, p, vs, rfl, hus⟩ := h
  exact ⟨t :: us, items, p, vs, rfl, List.forall_mem_cons.2 ⟨ht, hus⟩⟩

theorem Placed.cons (ht : ¬ t.Acts) (h : Placed ts) : Placed (t :: ts) :=
  ⟨fun ha => absurd ha ht, h⟩

theorem Placed.acting (hr : Resting ts) (h : Placed ts) : Placed (t :: ts) := ⟨fun _ => hr, h⟩

/-- What a word leaves to be done is placed where the word was. -/
theorem Placed.append (hm : ∀ u ∈ more, Task.Acts u) (hr : Resting ts) (h : Placed ts) :
    Placed (more ++ ts) ∧ Resting (more ++ ts) := by
  induction more with
  | nil => exact ⟨h, hr⟩
  | cons u more ih =>
    obtain ⟨hp, hrest⟩ := ih fun u hu => hm u (by simp [hu])
    exact ⟨.acting hrest hp, .cons (hm u (by simp)) hrest⟩

end Placed

namespace Machine

theorem acts_of_word {m : Machine} {t : Task} {word : Eval Next} (h : m.word? t = some word) :
    t.Acts := by
  cases t <;> trivial

/-- The tasks of a machine above the base are placed. -/
def PlacedOn (base : List Task) (m : Machine) : Prop := ∃ ts, m.tasks = ts ++ base ∧ Placed ts

section PlacedOn

variable {base ts : List Task} {m : Machine}

theorem placed_enter {after : List Task} (items : ListId) (h : Placed (after ++ ts))
    (ht : m.tasks = ts ++ base) : (m.enter items after).PlacedOn base := by
  unfold enter
  rcases m.interp.calls.push items (m.interp.putWords.depth - 1) with ⟨e | _, calls⟩
  · exact ⟨after ++ ts, by simp [ht], h⟩
  · exact ⟨.walk items 0 :: (after ++ ts), by simp [ht], .cons id h⟩

theorem placed_before {t : Task} (h : Placed (t :: ts)) (ht : m.tasks = ts ++ base) :
    (m.before t).PlacedOn base := ⟨t :: ts, by simp [before, ht], h⟩

theorem placed_follow {next : Next} (hn : next.Orderly) (h : Placed ts) (hr : Resting ts)
    (ht : m.tasks = ts ++ base) : (m.follow next).PlacedOn base := by
  cases next with
  | done => exact ⟨ts, ht, h⟩
  | walk items after =>
    have hafter : ∀ t ∈ after, t.Acts := fun t hmem => (hn t hmem).acts
    exact placed_enter items (h.append hafter hr).1 ht
  | pause => exact ⟨ts, (m.pause_control .breaking).1.trans ht, h⟩
  | write channel message => exact ⟨ts, (m.notify_control _).1.trans ht, h⟩
  | call call keep =>
    unfold follow marshal
    dsimp only
    split
    · exact ⟨ts, ht, h⟩
    · exact placed_before (.cons id h) ht

theorem placed_act {word : Eval Next} (h : Placed ts) (hr : Resting ts)
    (ht : m.tasks = ts ++ base)
    (hw : ∀ next, (word m.interp).1 = .ok next → next.Orderly) : (m.act word).PlacedOn base := by
  unfold act
  split
  · next next i hi =>
    exact placed_follow (m := { m with interp := i }) (hw next (by rw [hi])) h hr ht
  · exact ⟨ts, ht, h⟩

theorem placed_resolve (v : Value) (h : Placed ts) (hr : Resting ts)
    (ht : m.tasks = ts ++ base) : (m.act (Interp.resolve v)).PlacedOn base := by
  obtain ⟨name, body, rfl, -, -, hres⟩ | ⟨-, ho⟩ := Interp.resolve_cases v m.interp
  · unfold act
    rw [hres]
    exact placed_enter body (.cons id h) ht
  · exact placed_act h hr ht ho

theorem placed_word {t : Task} {word : Eval Next} (hw : m.word? t = some word) (h : Placed ts)
    (hr : Resting ts) (ht : m.tasks = ts ++ base) : (m.act word).PlacedOn base :=
  word_cases (Q := fun word => (m.act word).PlacedOn base) hw
    (fun v => placed_resolve v h hr ht) fun _ hw => placed_act h hr ht (hw m.interp).2

theorem placed_deliver (r : Except EvalError (Option Value)) (reply : Reply) (h : Placed ts)
    (ht : m.tasks = ts ++ base) : (m.deliver r reply).PlacedOn base := by
  cases reply with
  | toMember site k => exact placed_before (.cons id h) ht
  | toCaller ticket => exact ⟨ts, ht, h⟩

theorem placed_callback (c : Callback) (args : Array Value) (reply : Reply) (serving : Bool)
    (h : Placed ts) (ht : m.tasks = ts ++ base) :
    (m.callback c args reply serving).PlacedOn base := by
  unfold callback
  split
  · refine placed_enter c.body ?_ ht
    exact .cons id h
  · exact placed_deliver _ reply h ht

theorem placed_member (site : CallSite) (program : HostProgram (Option Value)) (h : Placed ts)
    (ht : m.tasks = ts ++ base) : (m.member site program).PlacedOn base := by
  have hmember {program : HostProgram (Option Value)} : Placed (.member site program :: ts) :=
    .cons id h
  unfold member
  split
  · split <;> exact ⟨ts, ht, h⟩
  · exact ⟨ts, ht, h⟩
  · exact placed_before hmember ht
  · exact placed_before hmember ht
  · exact placed_callback _ _ _ _ h ht
  · unfold callbackFromMember
    split
    · exact placed_before hmember ht
    · split
      · exact placed_before hmember ht
      · split
        · exact placed_before hmember ht
        · exact placed_callback _ _ _ _ h ht

theorem placed_perform (t : Task) (h : Placed (t :: ts)) (ht : m.tasks = ts ++ base) :
    (m.perform t).PlacedOn base := by
  have hp := m.performs t
  generalize m.perform t = m' at hp ⊢
  cases hp with
  | word hw => exact placed_word hw h.2 (h.1 (acts_of_word hw)) ht
  | @served _ r requests =>
    have ht' : ({ m with requests }.before t).tasks = t :: ts ++ base := by simp [before, ht]
    exact placed_callback r.callback r.args (.toCaller r.ticket) true h ht'
  | @breaks v =>
    obtain ⟨hpause, -⟩ := ({ m with gate := { m.gate with stepNext := false } }.before
      (.resolve v)).pause_control .stepping
    exact ⟨.resolve v :: ts, hpause.trans (by simp [before, ht]), .acting (h.1 trivial) h.2⟩
  | @next items position v =>
    exact ⟨.element v :: .walk items (position + 1) :: ts, by simp [ht],
      .acting (resting_walk _ _ _) (.cons id h.2)⟩
  | ended => exact ⟨ts, ht, h.2⟩
  | left => exact ⟨ts, ht, h.2⟩
  | @answer returns depth servingBefore reply => exact placed_deliver _ reply h.2 ht
  | @member site program => exact placed_member site program h.2 ht

theorem placed_unwind (e : EvalError) (t : Task) (h : Placed ts) (ht : m.tasks = ts ++ base) :
    (m.unwind e t).PlacedOn base := by
  unfold unwind
  split
  · exact ⟨ts, ht, h⟩
  · exact placed_deliver _ _ h ht
  · exact ⟨ts, ht, h⟩

theorem PlacedOn.step (h : m.PlacedOn base) (hn : ∀ r, ¬ m.Returned base r) :
    m.step.PlacedOn base := by
  obtain ⟨ts, ht, hp⟩ := h
  unfold Machine.step
  split
  · next t tasks hs htasks =>
    cases ts with
    | nil => exact absurd ⟨ht, hs⟩ (hn (.ok ()))
    | cons t' ts =>
      obtain ⟨rfl, rfl⟩ := List.cons.inj (htasks.symm.trans ht)
      exact placed_perform (m := { m with tasks := ts ++ base }) t hp rfl
  · next e t tasks hs htasks =>
    cases ts with
    | nil => exact absurd ⟨ht, hs⟩ (hn (.error e))
    | cons t' ts =>
      obtain ⟨rfl, rfl⟩ := List.cons.inj (htasks.symm.trans ht)
      exact placed_unwind (m := { m with tasks := ts ++ base }) e t hp.2 rfl
  · exact ⟨ts, ht, hp⟩

theorem PlacedOn.move (h : m.PlacedOn base) (x : Move) (hn : ∀ r, ¬ m.Returned base r) :
    (m.move x).PlacedOn base := by
  cases x with
  | step => exact h.step hn
  | request r => exact h
  | resume stepNext => exact h
  | receive =>
    simp only [Machine.move, receive, take]
    split
    · exact h
    · split
      · exact h
      · obtain ⟨ts, ht, hp⟩ := h
        exact placed_before (m := { m with status := .proceeding }) (.cons id hp) ht
      · exact h
  | dropObserver =>
    simp only [Machine.move, dropObserver]
    split
    · exact h
    · obtain ⟨ts, ht, hp⟩ := h
      refine placed_before (.cons id hp) ht
    · exact h

end PlacedOn

/-! ## What others see -/

/-- The run is paused, or will be as soon as the observer takes the notice of it. -/
def AtPause (m : Machine) : Prop := m.status = .paused ∨ ∃ e, m.status = .offering (.event e true)

theorem not_atPause_of_proceeding {m : Machine} (h : m.status = .proceeding) : ¬ m.AtPause := by
  rintro (hp | ⟨e, hp⟩) <;> cases h.symm.trans hp

/-- Nothing new is left for others to see, and no pause begins. -/
structure Quiet (m m' : Machine) : Prop where
  published : m'.published = m.published
  running : m'.running = m.running
  goesOn : ¬ m'.AtPause

/-- A snapshot of a paused run is left for others to see, with the frames that there were, and the
scopes around the innermost one. -/
structure Shown (m m' : Machine) : Prop where
  published : m'.published = m'.interp.snapshot m'.running true
  running : m'.running = m.running
  calls : m'.interp.calls = m.interp.calls
  outer : m'.interp.putWords.outer = m.interp.putWords.outer

section Shows

variable {m m' : Machine}

theorem quiet_enter (hm : ¬ m.AtPause) (items : ListId) (after : List Task) :
    m.Quiet (m.enter items after) := by
  unfold enter
  rcases m.interp.calls.push items (m.interp.putWords.depth - 1) with ⟨e | _, calls⟩
  · refine ⟨rfl, rfl, ?_⟩
    rintro (hp | ⟨e, hp⟩) <;> cases hp
  · exact ⟨rfl, rfl, hm⟩

theorem quiet_notify (hm : ¬ m.AtPause) (e : Event) : m.Quiet (m.notify e) := by
  unfold notify queue
  split
  · refine ⟨rfl, rfl, ?_⟩
    rintro (hp | ⟨e, hp⟩) <;> cases hp
  · split <;> exact ⟨rfl, rfl, hm⟩

theorem quiet_marshal (hm : ¬ m.AtPause) (call : HostCall) (keep : Bool) :
    m.Quiet (m.marshal call keep) := by
  unfold marshal
  dsimp only
  split
  · refine ⟨rfl, rfl, ?_⟩
    rintro (hp | ⟨e, hp⟩) <;> cases hp
  · exact ⟨rfl, rfl, hm⟩

theorem shown_pause (hs : ¬ m.serving = true) (e : Event) : m.Shown (m.pause e) := by
  obtain ⟨_, _, _, serving, _, ⟨dispatch, listening, _⟩, _, _, _, _⟩ := m
  cases serving
  · cases listening <;> cases dispatch <;> exact ⟨rfl, rfl, rfl, rfl⟩
  · exact absurd rfl hs

/-- A pause is skipped while a callback is served for someone else. -/
theorem shows_pause (hm : ¬ m.AtPause) (e : Event) :
    m.Quiet (m.pause e) ∨ m.Shown (m.pause e) := by
  by_cases hs : m.serving = true
  · refine .inl ?_
    rw [pause, if_pos hs]
    exact ⟨rfl, rfl, hm⟩
  · exact .inr (shown_pause hs e)

theorem shows_follow (hm : ¬ m.AtPause) (next : Next) :
    m.Quiet (m.follow next) ∨ m.Shown (m.follow next) := by
  cases next with
  | done => exact .inl ⟨rfl, rfl, hm⟩
  | walk items after => exact .inl (quiet_enter hm items after)
  | pause => exact shows_pause hm .breaking
  | write channel message => exact .inl (quiet_notify hm _)
  | call call keep => exact .inl (quiet_marshal hm call keep)

theorem shows_act {word : Eval Next} (hm : ¬ m.AtPause) (he : Edits m.interp (word m.interp).2) :
    m.Quiet (m.act word) ∨ m.Shown (m.act word) := by
  unfold act
  split
  · next next i hi =>
    rw [hi] at he
    rcases shows_follow (m := { m with interp := i }) hm next with h | h
    · exact .inl ⟨h.published, h.running, h.goesOn⟩
    · exact .inr ⟨h.published, h.running, h.calls.trans he.calls_eq, h.outer.trans he.outer_eq⟩
  · refine .inl ⟨rfl, rfl, ?_⟩
    rintro (hp | ⟨e, hp⟩) <;> cases hp

theorem shows_resolve (hm : ¬ m.AtPause) (v : Value) :
    m.Quiet (m.act (Interp.resolve v)) ∨ m.Shown (m.act (Interp.resolve v)) := by
  obtain ⟨name, body, rfl, -, -, hr⟩ | ⟨he, -⟩ := Interp.resolve_cases v m.interp
  · unfold act
    rw [hr]
    have h := quiet_enter hm body [.leaveScope]
      (m := { m with interp := { m.interp with putWords := m.interp.putWords.enter } })
    exact .inl ⟨h.published, h.running, h.goesOn⟩
  · exact shows_act hm he

theorem quiet_deliver (hm : ¬ m.AtPause) (r : Except EvalError (Option Value)) (reply : Reply) :
    m.Quiet (m.deliver r reply) := by
  cases reply <;> exact ⟨rfl, rfl, hm⟩

theorem quiet_callback (hm : ¬ m.AtPause) (c : Callback) (args : Array Value) (reply : Reply)
    (serving : Bool) : m.Quiet (m.callback c args reply serving) := by
  unfold callback
  split
  · have h := quiet_enter (m := { m with
        interp := { m.interp with stack := ⟨m.interp.stack.values ++ args⟩ }, serving }) hm c.body
      [.callback c.signature.returns m.interp.calls.depth m.serving reply]
    exact ⟨h.published, h.running, h.goesOn⟩
  · exact quiet_deliver hm _ reply

theorem quiet_endCallback (depth : Nat) (servingBefore : Bool) (reply : Reply)
    (r : Except EvalError (Option Value)) :
    m.Quiet (m.endCallback depth servingBefore reply r) := by
  cases r <;> cases reply <;> exact ⟨rfl, rfl, not_atPause_of_proceeding rfl⟩

theorem quiet_member (hm : ¬ m.AtPause) (site : CallSite) (program : HostProgram (Option Value)) :
    m.Quiet (m.member site program) := by
  unfold member
  split
  · split <;> exact ⟨rfl, rfl, hm⟩
  · refine ⟨rfl, rfl, ?_⟩
    rintro (hp | ⟨e, hp⟩) <;> cases hp
  · exact ⟨rfl, rfl, hm⟩
  · exact ⟨rfl, rfl, hm⟩
  · exact quiet_callback hm _ _ _ _
  · unfold callbackFromMember
    split
    · exact ⟨rfl, rfl, hm⟩
    · split
      · exact ⟨rfl, rfl, hm⟩
      · split
        · exact ⟨rfl, rfl, hm⟩
        · exact quiet_callback hm _ _ _ _

theorem shows_word {t : Task} {word : Eval Next} (hm : ¬ m.AtPause) (hw : m.word? t = some word) :
    m.Quiet (m.act word) ∨ m.Shown (m.act word) :=
  word_cases (Q := fun word => m.Quiet (m.act word) ∨ m.Shown (m.act word)) hw
    (shows_resolve hm) fun _ hw => shows_act hm (hw m.interp).1

/-- Only a task that lets a word act can pause the run. -/
theorem shows_perform (hm : ¬ m.AtPause) (t : Task) :
    m.Quiet (m.perform t) ∨ t.Acts ∧ m.Shown (m.perform t) := by
  have hp := m.performs t
  generalize m.perform t = m' at hp ⊢
  cases hp with
  | word hw => exact (shows_word hm hw).imp id fun h => ⟨acts_of_word hw, h⟩
  | @served _ r requests =>
    have h := quiet_callback (m := { m with requests }.before t) hm r.callback r.args
      (.toCaller r.ticket) true
    exact .inl ⟨h.published, h.running, h.goesOn⟩
  | @breaks v =>
    rcases shows_pause (m := { m with gate := { m.gate with stepNext := false } }.before
      (.resolve v)) hm .stepping with h | h
    · exact .inl ⟨h.published, h.running, h.goesOn⟩
    · exact .inr ⟨trivial, h.published, h.running, h.calls, h.outer⟩
  | next => exact .inl ⟨rfl, rfl, hm⟩
  | ended => exact .inl ⟨rfl, rfl, hm⟩
  | left => exact .inl ⟨rfl, rfl, hm⟩
  | @answer returns depth servingBefore reply =>
    have h := quiet_endCallback depth servingBefore reply
      (Interp.callbackResult returns m.interp).1
      (m := { m with interp := (Interp.callbackResult returns m.interp).2 })
    exact .inl ⟨h.published, h.running, h.goesOn⟩
  | @member site program => exact .inl (quiet_member hm site program)

theorem quiet_unwind (hm : ¬ m.AtPause) (e : EvalError) (t : Task) : m.Quiet (m.unwind e t) := by
  unfold unwind
  split
  · exact ⟨rfl, rfl, hm⟩
  · exact quiet_endCallback _ _ _ _
  · exact ⟨rfl, rfl, hm⟩

/-- What a move does to what others see: nothing, where a pause goes on with the interpreter as it
was; or a pause begins where a word acts. -/
inductive Shows (m m' : Machine) : Prop where
  | same (published : m'.published = m.published) (running : m'.running = m.running)
    (waits : m'.AtPause → m.AtPause ∧ m'.interp = m.interp)
  | paused {t : Task} {ts : List Task} (status : m.status = .proceeding) (tasks : m.tasks = t :: ts)
    (acts : t.Acts) (shown : m.Shown m')

theorem Quiet.shows (h : m.Quiet m') : m.Shows m' :=
  .same h.published h.running fun hp => absurd hp h.goesOn

theorem step_shows (m : Machine) : m.Shows m.step := by
  unfold step
  split
  · next t ts hs ht =>
    rcases shows_perform (m := { m with tasks := ts }) (not_atPause_of_proceeding hs) t with
      h | ⟨hacts, h⟩
    · exact Quiet.shows ⟨h.published, h.running, h.goesOn⟩
    · exact .paused hs ht hacts ⟨h.published, h.running, h.calls, h.outer⟩
  · next e t ts hs ht =>
    have hm : ¬ ({ m with tasks := ts } : Machine).AtPause := by
      rintro (hp | ⟨e, hp⟩) <;> cases hs.symm.trans hp
    have h := quiet_unwind hm e t
    exact Quiet.shows ⟨h.published, h.running, h.goesOn⟩
  · exact .same rfl rfl fun hp => ⟨hp, rfl⟩

theorem move_shows (m : Machine) (x : Move) : m.Shows (m.move x) := by
  cases x with
  | step => exact m.step_shows
  | request r => exact .same rfl rfl fun hp => ⟨hp, rfl⟩
  | receive =>
    simp only [move, receive, take]
    split
    · exact .same rfl rfl fun hp => ⟨hp, rfl⟩
    · split
      · next e pauses hs =>
        refine .same rfl rfl fun hp => ⟨?_, rfl⟩
        cases pauses with
        | true => exact .inr ⟨e, hs⟩
        | false => rcases hp with hp | ⟨e, hp⟩ <;> cases hp
      · refine .same rfl rfl fun hp => ?_
        rcases hp with hp | ⟨e, hp⟩ <;> cases hp
      · exact .same rfl rfl fun hp => ⟨hp, rfl⟩
  | resume stepNext =>
    simp only [move, resume]
    split
    · refine .same rfl rfl fun hp => ?_
      rcases hp with hp | ⟨e, hp⟩ <;> cases hp
    · exact .same rfl rfl fun hp => ⟨hp, rfl⟩
  | dropObserver =>
    simp only [move, dropObserver]
    split
    · refine .same rfl rfl fun hp => ?_
      rcases hp with hp | ⟨e, hp⟩ <;> cases hp
    · refine .same rfl rfl fun hp => ?_
      rcases hp with hp | ⟨e, hp⟩ <;> cases hp
    · exact .same rfl rfl fun hp => ⟨hp, rfl⟩

end Shows

end Machine

end WordStack
