import WordStack.Proofs.Courses

/-!
# Runs start fresh

Sessions that have run programs before go on from what is set for good: the store, the words that
are set, the program and its text. All else that a run leaves behind is of no account to the next
one. Two sessions of which one trails the other by what an earlier run left (`Trails`) stay like
that, whatever is done to both, and once the run is over they are the same (`run_starts_fresh`).
-/

namespace WordStack

/-! ## Machines that earlier runs tell apart -/

namespace Machine

variable {q : List Event} {m n : Machine} {c : Config} {attached : Bool}

/-- `m` is `n` but for the snapshot that is left for others to see, and the notices `q` that were
queued before. -/
def Trails (q : List Event) (m n : Machine) : Prop :=
  ∃ published, m =
    { n with published, outbox := { n.outbox with queued := q.toArray ++ n.outbox.queued } }

theorem Trails.alike (h : Trails q m n) : Alike q.toArray m n := by
  obtain ⟨p, rfl⟩ := h
  exact ⟨n.gate, p, rfl⟩

theorem Trails.status_eq (h : Trails q m n) : m.status = n.status := by
  obtain ⟨p, rfl⟩ := h
  rfl

theorem Trails.tasks_eq (h : Trails q m n) : m.tasks = n.tasks := by
  obtain ⟨p, rfl⟩ := h
  rfl

theorem Trails.gate_eq (h : Trails q m n) : m.gate = n.gate := by
  obtain ⟨p, rfl⟩ := h
  rfl

theorem Trails.breaksIn_eq (h : Trails q m n) : m.breaksIn = n.breaksIn := by
  obtain ⟨p, rfl⟩ := h
  rfl

theorem Trails.queued_eq (h : Trails q m n) :
    m.outbox.queued = q.toArray ++ n.outbox.queued := by
  obtain ⟨p, rfl⟩ := h
  rfl

theorem trails_of_alike (h : Alike q.toArray m n) (hg : m.gate = n.gate) : Trails q m n := by
  obtain ⟨g, p, rfl⟩ := h
  obtain rfl : g = n.gate := hg
  exact ⟨p, rfl⟩

/-- What the machines say decides how the debugger holds them. -/
theorem trails_of_speaks {m₁ n₁ : Machine} (h : Alike q.toArray m n) (hm : m₁.Speaks m)
    (hn : n₁.Speaks n) (hg : m₁.gate.stepNext = n₁.gate.stepNext) : Trails q m n := by
  refine trails_of_alike h ?_
  have hat : m.AtPause ↔ n.AtPause := by
    obtain ⟨g, p, rfl⟩ := h
    exact Iff.rfl
  have hpaused : m.gate.paused = n.gate.paused :=
    Bool.eq_iff_iff.2 (hm.held.trans (hat.trans hn.held.symm))
  have hstep : m.gate.stepNext = n.gate.stepNext := by rw [hm.stepNext, hn.stepNext, hg]
  rcases hmg : m.gate with ⟨paused, stepNext⟩
  rcases hng : n.gate with ⟨paused', stepNext'⟩
  rw [hmg, hng] at hpaused hstep
  cases hpaused
  cases hstep
  rfl

theorem Trails.step (h : Trails q m n) (hn : n.HeldAtPause) : Trails q m.step n.step := by
  have hstatus := h.status_eq
  have htasks := h.tasks_eq
  have hbreaks := h.breaksIn_eq
  by_cases hs : n.status.phase = .waiting
  · rwa [step_of_waiting hs, step_of_waiting (hstatus ▸ hs)]
  have hawake := hn.awake hs
  have hawake' : m.Awake := ⟨hstatus ▸ hs, h.gate_eq ▸ hawake.free⟩
  by_cases hb : ∃ v ts, n.status = .proceeding ∧ n.tasks = .element v :: ts ∧ n.breaksIn = true
  · -- the debugger comes in on both
    obtain ⟨v, ts, hp, ht, hb⟩ := hb
    have hp' := hstatus.trans hp
    have ht' := htasks.trans ht
    have hb' := hbreaks.trans hb
    refine trails_of_speaks ?_ (hawake'.stepping hp' ht' hb') (hawake.stepping hp ht hb) rfl
    rw [step_of_proceeding hp ht, step_of_proceeding hp' ht']
    have hn' := element_of_breaksIn (m := { n with tasks := ts }) v hb
    have hm' := element_of_breaksIn (m := { m with tasks := ts }) v hb'
    obtain ⟨p, rfl⟩ := h
    simp only [perform]
    rw [hm', hn']
    exact Alike.pause (n := { n with tasks := ts, gate := _ }.before (.resolve v))
      ⟨_, p, rfl⟩ .stepping
  · have hgoes (v : Value) (ts : List Task) (hp : n.status = .proceeding)
        (ht : n.tasks = .element v :: ts) : n.breaksIn = false :=
      Bool.eq_false_iff.2 fun hne => hb ⟨v, ts, hp, ht, hne⟩
    refine trails_of_speaks (h.alike.step fun v ts hp ht => ?_) (hawake'.step fun v ts hp ht => ?_)
      (hawake.step hgoes) (by rw [h.gate_eq])
    · exact ⟨hbreaks.trans (hgoes v ts hp ht), hgoes v ts hp ht⟩
    · exact hbreaks.trans (hgoes v ts (hstatus ▸ hp) (htasks ▸ ht))

theorem Trails.run (h : Trails q m n) (hn : n.HeldAtPause) (fuel : Nat) :
    Trails q (m.run fuel) (n.run fuel) := by
  induction fuel generalizing m n with
  | zero => exact h
  | succ fuel ih =>
    have hwaits : m.waits = n.waits := by
      obtain ⟨p, rfl⟩ := h
      rfl
    unfold Machine.run
    rw [hwaits]
    split
    · exact h
    · exact ih (h.step hn) hn.step.held

theorem Trails.take (h : Trails q m n) : m.take.1 = n.take.1 ∧ Trails q m.take.2 n.take.2 := by
  obtain ⟨p, rfl⟩ := h
  unfold Machine.take
  dsimp only
  split <;> exact ⟨rfl, p, rfl⟩

theorem Trails.resume (h : Trails q m n) (stepNext : Bool) :
    Trails q (m.resume stepNext).2 (n.resume stepNext).2 := by
  obtain ⟨p, rfl⟩ := h
  exact ⟨p, rfl⟩

/-- Two machines that have nothing to do differ in nothing else than what runs leave. -/
theorem Rested.eq_leaving (hm : m.Rested c attached) (hn : n.Rested c attached) :
    m = { n with
      interp := m.interp
      gate := m.gate
      outbox := { n.outbox with queued := m.outbox.queued }
      published := m.published } := by
  obtain ⟨_, _, _, _, _, ⟨_, _, _⟩, _, _, _, _⟩ := m
  obtain ⟨_, _, _, _, _, ⟨_, _, _⟩, _, _, _, _⟩ := n
  obtain ⟨-, -, hm1, hm2, hm3, -, hm4, hm5, hm6, hm7, hm8⟩ := hm
  obtain ⟨-, -, hn1, hn2, hn3, -, hn4, hn5, hn6, hn7, hn8⟩ := hn
  simp_all

end Machine

/-- The operands, the frames and the put names are not among what counts for a run. -/
theorem Interp.prepared_congr {i j : Interp} {code : Option String}
    (hsetting : i.setting = j.setting) (hlimit : i.calls.limit = j.calls.limit)
    (hstore : i.store = j.store) (hset : i.setWords = j.setWords) (hroot : i.root = j.root)
    (hcode : code = none → i.code = j.code) : i.prepared code = j.prepared code := by
  obtain ⟨_, _, _, _, _, ⟨_, _⟩, _, _⟩ := i
  obtain ⟨_, _, _, _, _, ⟨_, _⟩, _, _⟩ := j
  cases code <;> simp_all [prepared, setCode, reset, CallStack.clear, Scopes.reset]

/-- An empty text is read as a program without words. -/
theorem Interp.loadRoot_empty {i : Interp} (h : i.code = "") : loadRoot i =
    (.ok (i.store.newProgram []).1, { i with
      store := (i.store.newProgram []).2, root := (i.store.newProgram []).1 }) := by
  refine loadRoot_of_read ?_
  have hscan : scan i.setting.delimiters 0 "".toList = [] := by rw [String.toList_empty, scan]
  have hforms : parseForms i.setting.delimiters [] = [] := by rw [parseForms, parseList]
  rw [h]
  unfold readForms tokenize
  rw [hscan, expand]
  simp only [hforms]

/-- What earlier runs left on a machine is of no account to the next one. -/
theorem Machine.Rested.launched_trails {m n : Machine} {c : Config} {attached : Bool}
    {code : Option String} (hm : m.Rested c attached) (hn : n.Rested c attached)
    (hi : m.interp.prepared code = n.interp.prepared code) (evaluates : Bool) :
    (m.launched code evaluates).Trails m.outbox.queued.toList
      ({ n with outbox := { n.outbox with queued := #[] } }.launched code evaluates) := by
  have hleft := hm.eq_leaving hn
  generalize m.outbox.queued = queued at hleft ⊢
  generalize m.interp = i at hi hleft
  generalize m.gate = gate at hleft
  generalize m.published = published at hleft
  subst hleft
  unfold Machine.launched
  dsimp only
  rw [hi]
  rcases Interp.loadRoot (n.interp.prepared code) with ⟨e | root, i⟩
  · exact ⟨published, by simp⟩
  · cases evaluates
    · exact ⟨published, by simp⟩
    · simp only [if_true, Machine.enter]
      rcases i.calls.push root (i.putWords.depth - 1) with ⟨e | _, calls⟩ <;>
        exact ⟨published, by simp⟩

namespace Intervention

/-- What an observer does apart from receiving the first `k` notices. -/
def beyond : Nat → List Intervention → List Intervention
  | 0, xs => xs
  | _ + 1, [] => []
  | k + 1, .next :: xs => beyond k xs
  | k + 1, x :: xs => x :: beyond (k + 1) xs

theorem beyond_zero (xs : List Intervention) : beyond 0 xs = xs := by
  cases xs <;> simp [beyond]

theorem beyond_resume (k : Nat) (stepNext : Bool) (xs : List Intervention) :
    beyond k (.resume stepNext :: xs) = .resume stepNext :: beyond k xs := by
  cases k <;> simp [beyond]

theorem mem_of_mem_beyond {k : Nat} {xs : List Intervention} {x : Intervention}
    (h : x ∈ beyond k xs) : x ∈ xs := by
  induction xs generalizing k with
  | nil => cases k <;> exact h
  | cons y xs ih =>
    cases k with
    | zero => exact h
    | succ k =>
      cases y with
      | next => exact List.mem_cons_of_mem _ (ih h)
      | _ =>
        obtain rfl | h := List.mem_cons.1 h
        · exact List.mem_cons_self
        · exact List.mem_cons_of_mem _ (ih h)

end Intervention

namespace Session

variable {c : Config} {attached : Bool} {s t : Session} {run : RunInProgress}
  {q before told : List Event} {fuel : Nat} {thread : ThreadId} {code : Option String}
  {evaluates : Bool}

/-! ## Sessions that earlier runs tell apart -/

/-- `s` is `t` but for the notices `q` that were queued before and, while a run is in progress, for
the snapshot and the result that the last run has left. -/
def Trails (q : List Event) (s t : Session) : Prop :=
  ∃ machine outcome, s = { t with machine, outcome } ∧ machine.Trails q t.machine ∧
    (t.busy = none → machine.published = t.machine.published ∧ outcome = t.outcome)

/-- The session without the notices in its queue. -/
def cleared (s : Session) : Session :=
  { s with machine := { s.machine with outbox := { s.machine.outbox with queued := #[] } } }

theorem Trails.of_rest (h : s.Trails q t) (ht : t.busy = none) :
    s = { t with machine := { t.machine with outbox := { t.machine.outbox with
      queued := q.toArray ++ t.machine.outbox.queued } } } := by
  obtain ⟨m, o, rfl, ⟨p, rfl⟩, hrest⟩ := h
  obtain ⟨hp, ho⟩ := hrest ht
  obtain rfl : p = t.machine.published := hp
  obtain rfl : o = t.outcome := ho
  rfl

theorem trails_of_rest (q : List Event) (t : Session) :
    Trails q { t with machine := { t.machine with outbox := { t.machine.outbox with
      queued := q.toArray ++ t.machine.outbox.queued } } } t :=
  ⟨_, _, rfl, ⟨_, rfl⟩, fun _ => ⟨rfl, rfl⟩⟩

variable (fuel) in
theorem Trails.finish (h : s.Trails q t) (hq : t.machine.requests = []) (run : RunInProgress)
    (r : Except EvalError Unit) : (s.finish fuel run r).Trails q (t.finish fuel run r) := by
  have hrequests : s.machine.requests = [] := by
    obtain ⟨m, o, rfl, ⟨p, rfl⟩, -⟩ := h
    exact hq
  -- both publish the same snapshot, whatever was published before
  have hended : s.ended = { t.ended with outbox := { t.ended.outbox with
      queued := q.toArray ++ t.ended.outbox.queued } } := by
    obtain ⟨m, o, rfl, ⟨p, rfl⟩, -⟩ := h
    rfl
  rw [finish_eq run r hq, finish_eq run r hrequests, hended]
  obtain ⟨m, o, rfl, -, -⟩ := h
  generalize t.ended = n
  have hobserved : Machine.observed { n with outbox := { n.outbox with
      queued := q.toArray ++ n.outbox.queued } } = n.observed := rfl
  dsimp only
  split
  · exact ⟨_, _, rfl, ⟨_, rfl⟩, fun _ => ⟨rfl, rfl⟩⟩
  · rw [hobserved]
    split
    · exact ⟨_, _, rfl, ⟨_, rfl⟩, fun _ => ⟨rfl, rfl⟩⟩
    · unfold Machine.queue
      dsimp only
      split
      · exact ⟨_, _, rfl, ⟨n.published, by simp only [Array.append_push]⟩, fun _ => ⟨rfl, rfl⟩⟩
      · exact ⟨_, _, rfl, ⟨_, rfl⟩, fun _ => ⟨rfl, rfl⟩⟩

variable (fuel) in
theorem Trails.settle_underway (h : s.Trails q t) (ht : t.Underway c attached run before told) :
    (s.settle fuel).Trails q (t.settle fuel) := by
  obtain ⟨m, o, rfl, hm, -⟩ := h
  have hrun := hm.run ht.order.held fuel
  have hrequests := (ht.order.run fuel).1.requests
  have houtcome : (m.run fuel).outcome? = (t.machine.run fuel).outcome? := by
    obtain ⟨p, hp⟩ := hrun
    rw [hp]
    rfl
  unfold Session.settle
  dsimp only
  rw [houtcome]
  split
  · next run r hbusy hr =>
    exact Trails.finish fuel (t := { t with machine := t.machine.run fuel })
      ⟨_, o, rfl, hrun, fun hb => by cases hb.symm.trans ht.busy⟩ hrequests _ r
  · exact ⟨_, _, rfl, hrun, fun hb => by cases hb.symm.trans ht.busy⟩

theorem Trails.resume (h : s.Trails q t) (ht : t.Course c attached run before told)
    (stepNext : Bool) : (s.resume fuel stepNext).2.Trails q (t.resume fuel stepNext).2 := by
  cases ht with
  | finished ht =>
    have hs : s.AtRest c attached := by
      rw [h.of_rest ht.rest.busy]
      exact ht.rest.with_machine { ht.rest.machine with }
    rw [(hs.resume fuel stepNext).1, (ht.rest.resume fuel stepNext).1, h.of_rest ht.rest.busy]
    exact trails_of_rest q { t with machine := { t.machine with gate := ⟨false, stepNext⟩ } }
  | underway ht hn =>
    have hresumed := ht.move hn (x := .resume stepNext) trivial
    obtain ⟨m, o, rfl, hm, -⟩ := h
    exact Trails.settle_underway fuel ⟨_, o, rfl, hm.resume stepNext,
      fun hb => by cases hb.symm.trans ht.busy⟩ hresumed

variable (fuel) in
/-- Where no notices were queued before, the observers receive the same. -/
theorem Trails.receive (h : s.Trails [] t) (ht : t.Course c attached run before told)
    (hrun : run.evaluatorBefore = none) (n : Nat) :
    (s.receive fuel n).1 = (t.receive fuel n).1 ∧
      (s.receive fuel n).2.Trails [] (t.receive fuel n).2 := by
  induction n generalizing s t told with
  | zero => exact ⟨rfl, h⟩
  | succ n ih =>
    cases ht with
    | finished ht =>
      obtain rfl : s = t := by simpa using h.of_rest ht.rest.busy
      exact ⟨rfl, by simpa using trails_of_rest [] (s.receive fuel (n + 1)).2⟩
    | underway ht hn =>
      obtain ⟨m, o, rfl, hm, -⟩ := h
      have hbusy {α : Prop} (hb : t.busy = none) : α := by cases hb.symm.trans ht.busy
      have hqueued : m.outbox.queued = t.machine.outbox.queued :=
        hm.queued_eq.trans Array.empty_append
      obtain ⟨htaken, htake⟩ := hm.take
      unfold Session.receive
      dsimp only
      rw [hqueued, hm.status_eq, htaken]
      split
      · refine ⟨rfl, _, o, rfl, ?_, hbusy⟩
        obtain ⟨p, rfl⟩ := hm
        exact ⟨p, by simp only [Array.empty_append]⟩
      · next hq =>
        split
        · next hp => cases ht.parting.symm.trans hp
        · split
          · have hnext := ht.move hn (x := .receive) trivial
            simp only [Machine.move, Machine.notice?, Machine.receive, hq] at hnext
            have htrails : Trails [] { t with machine := m.take.2, outcome := o }
                { t with machine := t.machine.take.2 } := ⟨_, o, rfl, htake, hbusy⟩
            have hsettled := htrails.settle_underway fuel hnext
            split
            · exact ⟨rfl, hsettled⟩
            · exact ih hsettled (hnext.settle fuel hrun)
          · exact ⟨rfl, _, o, rfl, hm, hbusy⟩

variable (fuel) in
/-- What was queued before is received first. -/
theorem Trails.receive_queued {e : Event} (h : s.Trails (e :: q) t) (n : Nat) :
    (s.receive fuel (n + 1)).1 = some e ∧ (s.receive fuel (n + 1)).2.Trails q t := by
  obtain ⟨m, o, rfl, hm, hrest⟩ := h
  have hhead : m.outbox.queued[0]? = some e := by
    rw [hm.queued_eq]
    rcases t.machine.outbox.queued with ⟨queued⟩
    simp
  have htail : m.outbox.queued.eraseIdxIfInBounds 0 = q.toArray ++ t.machine.outbox.queued := by
    rw [hm.queued_eq]
    rcases t.machine.outbox.queued with ⟨queued⟩
    simp [Array.eraseIdxIfInBounds]
  unfold Session.receive
  dsimp only
  rw [hhead]
  refine ⟨rfl, _, o, rfl, ?_, hrest⟩
  rw [htail]
  obtain ⟨p, rfl⟩ := hm
  exact ⟨p, rfl⟩

variable (fuel) in
/-- An observer who is to receive notices of earlier runs is left behind by one who is not. -/
theorem Trails.next_queued {k : Nat} (h : s.Trails q t) (hk : 0 < fuel → q.length = k + 1) :
    ∃ q', (s.next fuel).1.toList ++ q' = q ∧ (s.next fuel).2.Trails q' t ∧
      (0 < fuel → q'.length = k) := by
  cases fuel with
  | zero => exact ⟨q, rfl, h, fun hf => by cases hf⟩
  | succ n =>
    obtain ⟨e, q', rfl⟩ := List.exists_cons_of_length_eq_add_one (hk n.succ_pos)
    obtain ⟨heq, hnext⟩ := h.receive_queued (n + 1) n
    have htold : (s.next (n + 1)).1 = some e := heq
    exact ⟨q', by rw [htold]; rfl, hnext, fun hf => Nat.succ.inj (hk hf)⟩

variable (fuel) in
/-- Observers who have received all of earlier runs receive the same. -/
theorem Trails.next_together (h : s.Trails q t) (ht : t.Course c attached run before told)
    (hrun : run.evaluatorBefore = none) (hq : 0 < fuel → q = []) :
    (s.next fuel).1.toList ++ q = q ++ (t.next fuel).1.toList ∧
      (s.next fuel).2.Trails q (t.next fuel).2 := by
  cases fuel with
  | zero => exact ⟨(List.append_nil q).symm, h⟩
  | succ n =>
    obtain rfl := hq n.succ_pos
    obtain ⟨heq, hnext⟩ := h.receive (n + 1) ht hrun (n + 1)
    exact ⟨(List.append_nil _).trans (congrArg Option.toList heq), hnext⟩

variable (fuel) in
/-- Two observers who do the same apart from receiving what was queued before stay together. -/
theorem Trails.interventions (h : s.Trails q t) (ht : t.Course c attached run before told)
    (hrun : run.evaluatorBefore = none) {k : Nat} (hk : 0 < fuel → q.length = k)
    {xs : List Intervention} (hx : ∀ x ∈ xs, x.Attends) :
    ∃ q', (xs.foldl (Session.intervene fuel) s).Trails q'
        ((Intervention.beyond k xs).foldl (Session.intervene fuel) t) ∧
      s.heard fuel xs ++ q' = q ++ t.heard fuel (Intervention.beyond k xs) := by
  induction xs generalizing s t q k told with
  | nil =>
    refine ⟨q, ?_⟩
    cases k <;> simpa [Intervention.beyond, heard] using h
  | cons x xs ih =>
    obtain ⟨hx, hxs⟩ := List.forall_mem_cons.1 hx
    cases x with
    | dropObserver => exact hx.elim
    | invoke thread callback args => exact hx.elim
    | resume stepNext =>
      rw [Intervention.beyond_resume]
      exact ih (h.resume ht stepNext) (ht.resume hrun stepNext) hk hxs
    | next =>
      cases k with
      | zero =>
        have hq (hf : 0 < fuel) : q = [] := List.length_eq_zero_iff.1 (hk hf)
        obtain ⟨htold, hnext⟩ := h.next_together fuel ht hrun hq
        obtain ⟨q', htrails, hheard⟩ := ih hnext (ht.intervene hrun (x := .next) trivial) hk hxs
        rw [Intervention.beyond_zero] at htrails hheard ⊢
        refine ⟨q', htrails, ?_⟩
        calc s.heard fuel (.next :: xs) ++ q'
          _ = (s.next fuel).1.toList ++ ((s.next fuel).2.heard fuel xs ++ q') :=
            List.append_assoc ..
          _ = (s.next fuel).1.toList ++ q ++ (t.next fuel).2.heard fuel xs :=
            (congrArg _ hheard).trans (List.append_assoc ..).symm
          _ = q ++ t.heard fuel (.next :: xs) := by
            rw [htold]
            exact List.append_assoc ..
      | succ k =>
        obtain ⟨q₁, htold, hnext, hlength⟩ := h.next_queued fuel hk
        obtain ⟨q', htrails, hheard⟩ := ih hnext ht hlength hxs
        refine ⟨q', htrails, ?_⟩
        calc s.heard fuel (.next :: xs) ++ q'
          _ = (s.next fuel).1.toList ++ ((s.next fuel).2.heard fuel xs ++ q') :=
            List.append_assoc ..
          _ = q ++ t.heard fuel (Intervention.beyond k xs) := by
            rw [hheard, ← List.append_assoc, htold]

/-! ## Runs -/

/-- Two sessions agree on what counts for a run of the code: the store, the words that are set, the
program, and the text of the program if that is what runs. -/
structure Agrees (code : Option String) (s t : Session) : Prop where
  store : s.machine.interp.store = t.machine.interp.store
  setWords : s.machine.interp.setWords = t.machine.interp.setWords
  root : s.machine.interp.root = t.machine.interp.root
  code : code = none → s.machine.interp.code = t.machine.interp.code

theorem AtRest.cleared (h : s.AtRest c attached) : s.cleared.AtRest c attached :=
  h.with_machine { h.machine with }

theorem Agrees.refl (code : Option String) (s : Session) : s.Agrees code s :=
  ⟨rfl, rfl, rfl, fun _ => rfl⟩

/-- Where runs begin in sessions that agree, the one trails the other by what was queued before. -/
theorem Agrees.launched (h : s.Agrees code t) (hs : s.AtRest c attached)
    (ht : t.AtRest c attached) (hp : s.parting = []) (hp' : t.parting = []) :
    (s.launched thread code evaluates).Trails s.undelivered
      (t.cleared.launched thread code evaluates) := by
  have hprepared : s.machine.interp.prepared code = t.machine.interp.prepared code :=
    Interp.prepared_congr (hs.machine.setting.trans ht.machine.setting.symm)
      (hs.machine.limit.trans ht.machine.limit.symm) h.store h.setWords h.root h.code
  have htrails := hs.machine.launched_trails ht.machine hprepared evaluates
  have hundelivered : s.undelivered = s.machine.outbox.queued.toList := by
    rw [hs.undelivered, hp, List.append_nil]
  have hleft : s = { t with machine := s.machine, outcome := s.outcome } := by
    obtain ⟨⟨_, _, _, _⟩, -, _, _⟩ := hs
    obtain ⟨⟨_, _, _, _⟩, -, _, _⟩ := ht
    obtain ⟨_, _, _, _, _, _, _, _, _⟩ := s
    obtain ⟨_, _, _, _, _, _, _, _, _⟩ := t
    simp_all
  refine ⟨s.machine.launched code evaluates, s.outcome, ?_, ?_, fun hb => by cases hb⟩
  · rw [hleft]
    rfl
  · rw [hundelivered]
    exact htrails

/-- All that the observer was to be told after a row of interventions: what he has received
meanwhile, and what he has not received yet. -/
def notices (fuel : Nat) (s : Session) (xs : List Intervention) : List Event :=
  s.heard fuel xs ++ (xs.foldl (Session.intervene fuel) s).undelivered

/-- The run that led to the session is over. On its way it gave the notices `es`, after those
`before`, and at its end one notice more, with the error of its result: of all but a program that
was to be read only, and was. -/
structure Ended (c : Config) (attached evaluates : Bool) (before es all : List Event)
    (r : Except EvalError Unit) (s : Session) : Prop where
  rest : s.AtRest c attached
  running : s.machine.running = false
  paused : s.machine.gate.paused = false
  outcome : s.outcome = some r
  all : all = before ++ es ++ farewell ⟨evaluates, none⟩ r

/-- The run that led to the session is in progress, and has given the notices `es` so far. -/
structure Going (before es all : List Event) (s : Session) : Prop where
  busy : s.busy.isSome = true
  all : all = before ++ es

theorem Trails.undelivered (h : s.Trails q t) : s.undelivered = q ++ t.undelivered := by
  obtain ⟨m, o, rfl, ⟨p, rfl⟩, -⟩ := h
  simp [Session.undelivered, Machine.pending]

/-- Where the run of a session is over, so is that of one that trails it, in the same way. -/
theorem Trails.ended {told' es : List Event} {r : Except EvalError Unit} (h : s.Trails q t)
    (hrest : t.AtRest c attached) (hr : t.outcome = some r)
    (htold : told' ++ q = before ++ told)
    (hall : told ++ t.undelivered = es ++ farewell ⟨evaluates, none⟩ r) :
    s.Ended c attached evaluates before es (told' ++ s.undelivered) r ∧ s.cleared = t.cleared := by
  have hs := h.of_rest hrest.busy
  have hrest' : s.AtRest c attached := by
    rw [hs]
    exact hrest.with_machine { hrest.machine with }
  refine ⟨⟨hrest', hrest'.machine.running, hrest'.machine.paused, ?_, ?_⟩, ?_⟩
  · rwa [hs]
  · calc told' ++ s.undelivered
      _ = told' ++ q ++ t.undelivered := by rw [h.undelivered, List.append_assoc]
      _ = before ++ (told ++ t.undelivered) := by rw [htold, List.append_assoc]
      _ = before ++ es ++ farewell ⟨evaluates, none⟩ r := by rw [hall, List.append_assoc]
  · rw [hs]
    rfl

/-- Where the run of a session is in progress, so is that of one that trails it. -/
theorem Trails.going {told' es : List Event} (h : s.Trails q t)
    (ht : t.Underway c attached run [] told) (htold : told' ++ q = before ++ told)
    (hall : told ++ t.machine.pending = es) : s.Going before es (told' ++ s.undelivered) := by
  refine ⟨?_, ?_⟩
  · obtain ⟨m, o, rfl, -, -⟩ := h
    simp [ht.busy]
  · have hundelivered : t.undelivered = t.machine.pending := by
      rw [Session.undelivered, ht.parting, List.append_nil]
    rw [h.undelivered, ← List.append_assoc, htold, List.append_assoc, hundelivered, hall]

/-- Whatever has been loaded, run and resumed, between its runs a session is at rest, and what it
loads gives no notices. Sessions at rest that agree on the store, the words that are set, the
program and the code, and differ in all else that runs leave, run the code with the same notices
to the same end: each observer may be behind by what he has not received of earlier runs. -/
theorem run_starts_fresh (c : Config) (attached : Bool) :
    (∀ s : Session, s.Reached c attached → s.busy = none →
      s.AtRest c attached ∧ ∀ name, (s.load name).2.undelivered = s.undelivered) ∧
    ∀ (s t : Session) (code : Option String), s.AtRest c attached → t.AtRest c attached →
      s.parting = [] → t.parting = [] → s.Agrees code t →
      ∀ (fuel : Nat) (thread : ThreadId) (evaluates : Bool), ∃ s₁ t₁,
        s.start fuel thread code evaluates = .ok s₁ ∧ t.start fuel thread code evaluates = .ok t₁ ∧
        ∀ xs ys : List Intervention, (∀ x ∈ xs, x.Attends) → (∀ y ∈ ys, y.Attends) →
          Intervention.beyond s.undelivered.length xs =
            Intervention.beyond t.undelivered.length ys →
          ∃ es : List Event, (∀ e ∈ es, e.Ordinary) ∧ (evaluates = false → es = []) ∧
            ((∃ r,
              (xs.foldl (intervene fuel) s₁).Ended c attached evaluates s.undelivered es
                (s₁.notices fuel xs) r ∧
              (ys.foldl (intervene fuel) t₁).Ended c attached evaluates t.undelivered es
                (t₁.notices fuel ys) r ∧
              (xs.foldl (intervene fuel) s₁).cleared = (ys.foldl (intervene fuel) t₁).cleared) ∨
            evaluates = true ∧
              (xs.foldl (intervene fuel) s₁).Going s.undelivered es (s₁.notices fuel xs) ∧
              (ys.foldl (intervene fuel) t₁).Going t.undelivered es (t₁.notices fuel ys)) := by
  refine ⟨fun s hs hb => ⟨hs.atRest hb, s.load_undelivered⟩, ?_⟩
  intro s t code hs ht hp hp' hagree fuel thread evaluates
  refine ⟨_, _, start_eq hs.machine.running, start_eq ht.machine.running, ?_⟩
  intro xs ys hx hy hbeyond
  -- both trail the run of a session that was told all there was
  have hbegins : (t.cleared.launched thread code evaluates).Underway c attached
      ⟨evaluates, none⟩ [] [] := by
    have hlaunched := ht.cleared.launched thread code evaluates hp'
    have hnone : t.cleared.undelivered = [] := by
      rw [ht.cleared.undelivered]
      simp [cleared, hp']
    rwa [hnone] at hlaunched
  have hcourse := hbegins.settle fuel rfl
  have hstrails := (hagree.launched hs ht hp hp').settle_underway fuel hbegins
  have httrails := ((Agrees.refl code t).launched ht ht hp' hp').settle_underway fuel hbegins
  obtain ⟨q, hsafter, hsheard⟩ := hstrails.interventions fuel hcourse rfl (fun _ => rfl) hx
  obtain ⟨q', htafter, htheard⟩ := httrails.interventions fuel hcourse rfl (fun _ => rfl) hy
  rw [← hbeyond] at htafter htheard
  have hz : ∀ z ∈ Intervention.beyond s.undelivered.length xs, z.Attends :=
    fun z hz => hx z (Intervention.mem_of_mem_beyond hz)
  cases hcourse.interventions fuel rfl hz with
  | finished h =>
    obtain ⟨es, r, ⟨hes, hreads⟩, hr, hall⟩ := h.ended
    obtain ⟨hsended, hscleared⟩ := hsafter.ended h.rest hr hsheard hall
    obtain ⟨htended, htcleared⟩ := htafter.ended h.rest hr htheard hall
    exact ⟨es, hes, hreads, .inl ⟨r, hsended, htended, hscleared.trans htcleared.symm⟩⟩
  | underway h hn =>
    obtain ⟨es, ⟨hes, hreads⟩, hall⟩ := h.notices
    have hevaluates : evaluates = true := by
      by_contra hne
      obtain ⟨r, hr⟩ := h.reads (Bool.eq_false_iff.2 hne)
      exact hn r hr
    exact ⟨es, hes, hreads, .inr ⟨hevaluates, hsafter.going h hsheard hall,
      htafter.going h htheard hall⟩⟩

/-- The run of an empty program is over as soon as it has begun. -/
theorem exists_new_ending : ∃ s : Session, Session.new { references := [] } false {} = .ok s ∧
    ((s.launched ⟨0⟩ none true).settle 10).busy = none := by
  refine ⟨_, rfl, ?_⟩
  unfold Session.launched Machine.launched
  rw [Interp.loadRoot_empty rfl]
  rfl

/-- An operand and a step of the debugger that are left do not tell the next run apart from the
first one of a new session. -/
theorem run_starts_fresh_of_leftovers : ∃ s t s₁ t₁ : Session,
    s.Reached { references := [] } false ∧ t.AtRest { references := [] } false ∧
      s.Agrees none t ∧ t.machine.interp.stack.values = #[.boolean true] ∧
      t.machine.gate.stepNext = true ∧ s.start 10 ⟨0⟩ none true = .ok s₁ ∧
      t.start 10 ⟨0⟩ none true = .ok t₁ ∧ s₁.busy = none ∧ s₁.cleared = t₁.cleared := by
  obtain ⟨s, hnew, hends⟩ := exists_new_ending
  have hreached := Reached.new hnew
  have hs : s.AtRest { references := [] } false :=
    ((run_starts_fresh _ _).1 s hreached (new_atRest hnew).1.busy).1
  have hleft : Machine.Rested { references := [] } false { s.machine with
      interp := { s.machine.interp with stack := ⟨#[.boolean true]⟩ }, gate := ⟨false, true⟩ } :=
    { hs.machine with paused := rfl }
  have hp := (new_atRest hnew).2
  obtain ⟨s₁, t₁, hstart, hstart', hruns⟩ := (run_starts_fresh _ _).2 s _ none hs
    (hs.with_machine hleft) hp hp ⟨rfl, rfl, rfl, fun _ => rfl⟩ 10 ⟨0⟩ true
  have hover : s₁.busy = none := by
    cases hstart.symm.trans (start_eq hs.machine.running)
    exact hends
  refine ⟨s, _, s₁, t₁, hreached, hs.with_machine hleft, ⟨rfl, rfl, rfl, fun _ => rfl⟩, rfl, rfl,
    hstart, hstart', hover, ?_⟩
  obtain ⟨es, -, -, ⟨r, -, -, hsame⟩ | ⟨-, hgoing, -⟩⟩ := hruns [] [] (by simp) (by simp) rfl
  · exact hsame
  · cases hover.symm ▸ hgoing.busy

end Session

end WordStack
