import WordStack.Proofs.Cursors
import WordStack.Proofs.Lockstep
import WordStack.Proofs.Muted
import WordStack.Proofs.Notices

/-!
# Elements that are announced

Where the debugger comes in before an element, he is told of it, and the element is the next task
from then until it is processed: no callback is served in between, and no error can come there
(`AnnouncedNext`). With the cursors of the frames and the hold of the debugger this is what every
run keeps (`Run.tidy`). Of a pause the observer is told where a word breaks or the debugger comes
in, and nowhere else.
-/

namespace WordStack.Machine

/-! ## What a step tells -/

section Tells

variable {m m' : Machine} {t : Task} {word : Eval Next}

theorem Silent.pending_eq (h : m.Silent m') (hm : m.Awake) : m'.pending = m.pending := by
  rw [pending_of_phase h.awake.phase, pending_of_phase hm.phase, h.outbox]

/-- A task for which no word acts tells nothing, unless the debugger comes in. -/
theorem Awake.perform_silent (hm : m.Awake) (h : m.word? t = none)
    (hb : ∀ v, t = .element v → m.breaksIn = false) : m.Silent (m.perform t) := by
  have hp := m.performs t
  generalize m.perform t = m' at hp ⊢
  cases hp with
  | word hw => cases h.symm.trans hw
  | @served _ r requests => exact hm.served r requests t
  | @breaks v hbreaks => cases hbreaks.symm.trans (hb v rfl)
  | next => exact ⟨⟨hm.phase, hm.free⟩, rfl, rfl⟩
  | ended => exact ⟨⟨hm.phase, hm.free⟩, rfl, rfl⟩
  | left => exact hm.with_interp _
  | @answer returns =>
    have hi := hm.with_interp (Interp.callbackResult returns m.interp).2
    exact hi.trans (hi.awake.endCallback _ _ _ _)
  | @member site program => exact hm.member site program

/-- From `m` to `m'` the observer is told of no pause. -/
def TellsNoPause (m m' : Machine) : Prop :=
  ∃ es, m'.pending = m.pending ++ es ∧ es.filter Event.isPause = []

theorem tellsNoPause_of_eq (h : m'.pending = m.pending) : m.TellsNoPause m' :=
  ⟨[], by rw [h, List.append_nil], rfl⟩

/-- A word that does not pause the run tells at most what it writes. -/
theorem Awake.act_tellsNoPause (hm : m.Awake) (h : (word m.interp).1 ≠ .ok .pause) :
    m.TellsNoPause (m.act word) := by
  have silent {m' : Machine} (hs : m.Silent m') : m.TellsNoPause m' :=
    tellsNoPause_of_eq (hs.pending_eq hm)
  unfold Machine.act
  split
  · next next i hi =>
    have hmi := hm.with_interp i
    cases next with
    | done => exact silent hmi
    | walk items after => exact silent (hmi.trans (hmi.awake.enter items after))
    | pause => exact absurd (by rw [hi]) h
    | write channel message =>
      have hp := pending_of_phase hm.phase
      simp only [Machine.follow, Machine.notify, queue]
      split
      · exact ⟨[.output channel message], by rw [hp]; rfl, rfl⟩
      · split
        · refine ⟨[.output channel message], ?_, rfl⟩
          rw [hp, pending_of_phase (by exact hm.phase)]
          simp
        · exact silent hmi
    | call call keep =>
      simp only [Machine.follow, Machine.marshal]
      split
      · refine tellsNoPause_of_eq ?_
        rw [pending_of_phase hm.phase]
        simp [pending]
      · exact silent (hmi.trans (hmi.awake.before _))
  · exact silent ⟨⟨by simp [Status.phase], hm.free⟩, rfl, rfl⟩

theorem act_of_breaksAt {v : Value} (h : m.interp.breaksAt v = true) :
    m.act (Interp.resolve v) = m.pause .breaking := by
  rw [act, Interp.resolve_of_breaksAt h]
  rfl

/-- Where someone listens, a pause holds the run and gives one notice. -/
theorem Awake.pause_tells (hm : m.Awake) (hs : m.serving = false)
    (hl : m.outbox.listening = true) (e : Event) :
    (m.pause e).gate.paused = true ∧ (m.pause e).pending = m.pending ++ [e] := by
  have hp := pending_of_phase hm.phase
  obtain ⟨_, _, status, serving, _, ⟨dispatch, listening, _⟩, _, _, _, _⟩ := m
  obtain rfl : serving = false := hs
  obtain rfl : listening = true := hl
  rw [hp]
  cases dispatch <;> simp [Machine.pause, publish, observed, queue, pending]

/-- The snapshot of a pause shows the innermost frame at its element. -/
theorem Shown.cursor {f : Frame} (h : m.Shown m') (hf : m.interp.calls.current? = some f) :
    m'.published.cursor? = f.cursor := by
  rw [h.published, Snapshot.cursor?, Interp.snapshot, List.head?_map,
    CallStack.head?_innermostFirst, h.calls, hf]
  rfl

end Tells

/-! ## Elements that have been announced -/

/-- Only the next task can be that of an element which the debugger has announced. Then no callback
is served for someone else, and the machine pauses or goes on. -/
structure AnnouncedNext (m : Machine) : Prop where
  behind : ∀ v, .resolve v ∉ m.tasks.tail
  next : ∀ v ts, m.tasks = .resolve v :: ts →
    m.serving = false ∧ (m.status = .proceeding ∨ m.AtPause)

section AnnouncedNext

variable {m m' : Machine} {t : Task} {ts : List Task}

theorem announcedNext_of_none (h : ∀ v, .resolve v ∉ m.tasks) : m.AnnouncedNext :=
  ⟨fun v hv => h v (List.mem_of_mem_tail hv), fun v ts ht => absurd (by simp [ht]) (h v)⟩

theorem not_resolve_of_subject {more : List Task} (h : ∀ u ∈ more, u.subject? = none)
    (hts : ∀ v, .resolve v ∉ ts) (v : Value) : .resolve v ∉ more ++ ts := by
  rw [List.mem_append]
  rintro (hv | hv)
  · cases h _ hv
  · exact hts v hv

/-- An element is announced only where the debugger comes in. -/
theorem not_resolve_of_becomes {more : List Task} {breaksIn : Bool} (h : t.Becomes breaksIn more)
    (hb : ∀ v, t = .element v → breaksIn = false) (hts : ∀ v, .resolve v ∉ ts) (v : Value) :
    .resolve v ∉ more ++ ts := by
  cases h with
  | plain hmore => exact not_resolve_of_subject hmore hts v
  | kept ht hmore =>
    rw [List.append_assoc]
    refine not_resolve_of_subject hmore (fun u => ?_) v
    simpa using ⟨(ht u).symm, hts u⟩
  | announced u hbreaks => cases hbreaks.symm.trans (hb u rfl)
  | begun items p u => simpa using hts v

theorem pause_status (m : Machine) (e : Event) :
    (m.pause e).status = m.status ∨ (m.pause e).AtPause := by
  obtain ⟨_, _, _, serving, _, ⟨dispatch, listening, _⟩, _, _, _, _⟩ := m
  cases serving <;> cases listening <;> cases dispatch <;> simp [pause, publish, observed, queue,
    AtPause]

theorem not_resolve_of_perform (hb : ∀ v, t = .element v → m.breaksIn = false)
    (hts : ∀ v, .resolve v ∉ m.tasks) (v : Value) : .resolve v ∉ (m.perform t).tasks := by
  obtain ⟨more, hm, hmore⟩ := m.perform_becomes t
  rw [hm]
  exact not_resolve_of_becomes hmore hb hts v

theorem AnnouncedNext.perform (hs : m.status = .proceeding) (hts : ∀ v, .resolve v ∉ m.tasks) :
    (m.perform t).AnnouncedNext := by
  by_cases hb : ∃ v, t = .element v ∧ m.breaksIn = true
  · obtain ⟨v, rfl, hb⟩ := hb
    obtain ⟨-, hserving, -⟩ := breaksIn_iff.1 hb
    let n := { m with gate := { m.gate with stepNext := false } }.before (.resolve v)
    have hn : m.perform (.element v) = n.pause .stepping := element_of_breaksIn v hb
    obtain ⟨htasks, hserves⟩ := n.pause_control .stepping
    have htasks : (n.pause .stepping).tasks = .resolve v :: m.tasks := htasks
    rw [hn]
    refine ⟨fun u => by rw [htasks]; exact hts u, fun u ts _ => ⟨hserves.trans hserving, ?_⟩⟩
    exact (n.pause_status .stepping).imp (fun h => h.trans hs) id
  · refine announcedNext_of_none fun v => not_resolve_of_perform (fun u hu => ?_) hts v
    exact Bool.eq_false_iff.2 fun hbreaks => hb ⟨u, hu, hbreaks⟩

theorem AnnouncedNext.step (h : m.AnnouncedNext) : m.step.AnnouncedNext := by
  by_cases hw : m.status.phase = .waiting
  · rwa [step_of_waiting hw]
  cases ht : m.tasks with
  | nil => rwa [step_of_nil ht]
  | cons t ts =>
    have hts : ∀ v, .resolve v ∉ ts := fun v => by simpa [ht] using h.behind v
    obtain ⟨e | _, -, hs⟩ := returned_of_phase hw rfl
    · obtain ⟨more, hm, hmore⟩ := addsNoElement_unwind (m := { m with tasks := ts }) e t
      rw [step_of_raising hs ht]
      refine announcedNext_of_none fun v => ?_
      rw [hm]
      exact not_resolve_of_subject hmore hts v
    · rw [step_of_proceeding hs ht]
      exact AnnouncedNext.perform (m := { m with tasks := ts }) hs hts

/-- Where the machine waits for something else than the end of a pause, or unwinds, no element has
been announced. -/
theorem AnnouncedNext.none (h : m.AnnouncedNext) (hs : m.status ≠ .proceeding)
    (hp : ¬ m.AtPause) (v : Value) : .resolve v ∉ m.tasks := by
  cases ht : m.tasks with
  | nil => simp
  | cons t ts =>
    rintro (_ | ⟨_, hv⟩)
    · exact (h.next v ts ht).2.elim hs hp
    · exact h.behind v (by rwa [ht])

theorem AnnouncedNext.none_of_job (h : m.AnnouncedNext) {site : CallSite} {call : HostCall}
    (hs : m.status = .offering (.job site call)) : ∀ v, .resolve v ∉ m.tasks := by
  refine h.none (by simp [hs]) ?_
  rintro (hp | ⟨e, hp⟩) <;> cases hs.symm.trans hp

theorem AnnouncedNext.begins (h : m.AnnouncedNext) {site : CallSite} {call : HostCall}
    (hs : m.status = .offering (.job site call)) (site' : CallSite)
    (program : HostProgram (Option Value)) :
    ({ m with status := .proceeding }.before (.member site' program)).AnnouncedNext :=
  announcedNext_of_none fun v => by simpa [before] using h.none_of_job hs v

theorem AnnouncedNext.move (h : m.AnnouncedNext) (x : Move) : (m.move x).AnnouncedNext := by
  cases x with
  | step => exact h.step
  | request r => exact ⟨h.behind, h.next⟩
  | receive =>
    simp only [Machine.move, receive, take]
    split
    · exact ⟨h.behind, h.next⟩
    · split
      · refine ⟨h.behind, fun v ts ht => ⟨(h.next v ts ht).1, ?_⟩⟩
        dsimp only
        split
        · exact .inr (.inl rfl)
        · exact .inl rfl
      · next site call hs => exact h.begins hs _ _
      · exact h
  | resume stepNext =>
    refine ⟨h.behind, fun v ts ht => ⟨(h.next v ts ht).1, ?_⟩⟩
    simp only [Machine.move, resume]
    split
    · exact .inl rfl
    · exact (h.next v ts ht).2
  | dropObserver =>
    simp only [Machine.move, dropObserver]
    split
    · exact ⟨h.behind, fun v ts ht => ⟨(h.next v ts ht).1, .inl rfl⟩⟩
    · next site call hs =>
      exact AnnouncedNext.begins (m := { m with outbox := { m.outbox with listening := false } })
        ⟨h.behind, h.next⟩ hs _ _
    · exact ⟨h.behind, h.next⟩

end AnnouncedNext

/-! ## Runs -/

theorem HeldAtPause.keeps {m : Machine} (h : m.HeldAtPause) (x : Move) :
    (m.move x).HeldAtPause := by
  cases x with
  | request r => exact h
  | dropObserver =>
    simp only [Machine.move, dropObserver]
    split
    · next e pauses hs =>
      intro hp
      cases pauses with
      | true => cases hp
      | false => obtain hat | ⟨e', hat⟩ := h hp <;> cases hs.symm.trans hat
    · next site call hs =>
      intro hp
      obtain hat | ⟨e, hat⟩ := h hp <;> cases hs.symm.trans hat
    · exact h
  | step => exact h.step.held
  | receive => exact h.receive.held
  | resume stepNext => exact fun hp => by cases hp

/-- Elements are noted before they are processed, only the next one has been announced, and the
debugger holds the machine only at a pause. -/
structure Tidy (old : List Frame) (m : Machine) : Prop where
  noted : Noted old (m.control m.tasks)
  next : m.AnnouncedNext
  held : m.HeldAtPause

variable {old : List Frame} {m m' start : Machine} {xs : List Move}

theorem Tidy.move (h : m.Tidy old) (x : Move) (hn : ∀ r, ¬ m.Returned [] r) :
    (m.move x).Tidy old :=
  ⟨noted_move h.noted x hn, h.next.move x, h.held.keeps x⟩

theorem Run.tidy (h : Run [] m xs m') (hm : m.Tidy old) : m'.Tidy old :=
  h.induct hm fun _ x h₁ hn => h₁.move x hn

/-- A run begins with no element next to process. -/
theorem Starts.tidy (hstart : m.Starts start) (ht : m.tasks = []) (hs : m.status = .proceeding)
    (hg : m.gate.paused = false) : start.Tidy m.interp.calls.frames.toList := by
  have hawake : m.Awake := ⟨by simp [hs, Status.phase], hg⟩
  obtain ⟨hsilent, more, hmore, hnone⟩ : m.Silent start ∧ m.AddsNoElement start := by
    cases hstart with
    | list items => exact ⟨hawake.enter items [], addsNoElement_enter items (by simp)⟩
    | value v =>
      obtain ⟨i, items, hact⟩ := m.act_walkValue v
      have hi := hawake.with_interp i
      rw [hact]
      exact ⟨hi.trans (hi.awake.enter items []),
        addsNoElement_enter (m := { m with interp := i }) items (by simp)⟩
    | callback c args reply serving =>
      exact ⟨hawake.callback c args reply serving, addsNoElement_callback c args reply serving⟩
  rw [ht, List.append_nil] at hmore
  have hnone : ∀ t ∈ start.tasks, t.subject? = none := hmore ▸ hnone
  refine ⟨?_, announcedNext_of_none fun v hv => ?_, fun hp => ?_⟩
  · obtain ⟨ts, hts, ha⟩ := hstart.follows
    rw [ht, List.append_nil] at hts
    have hk : (m.control []).Framed m.interp.calls.frames.toList :=
      Control.framed_of_exact (List.append_nil _).symm rfl trivial
    have hp : (m.control []).phase = .proceeding := by simp [control, hs, Status.phase]
    rw [hts]
    exact (ha.framed hk hp).noted (by simpa [← hts] using hnone)
  · cases hnone _ hv
  · cases hsilent.awake.free.symm.trans hp

end WordStack.Machine
