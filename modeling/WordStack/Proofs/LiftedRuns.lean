import WordStack.Proofs.LiftedWords
import WordStack.Proofs.Persistence
import WordStack.Proofs.Transparency

/-!
# Runs on a lifted stack

The same moves from the same machine, but with other values below its operand stack and another
limit of frames: move by move the two machines differ in nothing else (`Lifted`). They part only
where the first one lacks an operand (`Fails`, `Misanswers`) or has reached a limit that is not the
same for both (`Fails`), and where it makes a list of all the values (`ReadsStack`).
-/

namespace WordStack

/-- The second limit lets through what the first one does. -/
def Loosens (limit limit' : Option Nat) : Prop := ∀ k' ∈ limit', ∃ k ∈ limit, k ≤ k'

theorem Loosens.of_persists {limit : Option Nat} {i i' : Interp} (h : i.Persists i')
    (hl : Loosens i.calls.limit limit) : Loosens i'.calls.limit limit := by
  rw [h.limit]
  exact hl

/-- The call stack is as deep as it may be, or was when the error came up. -/
def EvalError.IsLimit (e : EvalError) : Prop := ∃ limit, e.rootCause = .recursionLimit limit

theorem CallStack.push_eq_error {c c' : CallStack} {items : ListId} {putScope : Nat} {e : EvalError}
    (h : c.push items putScope = (.error e, c')) : c' = c ∧ e.IsLimit := by
  unfold push at h
  split at h
  · cases h
    exact ⟨rfl, _, rfl⟩
  · cases h

theorem CallStack.push_lift {c c' : CallStack} {limit : Option Nat} (hl : Loosens c.limit limit)
    {items : ListId} {putScope : Nat} (h : c.push items putScope = (.ok (), c')) :
    { c with limit }.push items putScope = (.ok (), { c' with limit }) := by
  have hfree : c.reachedLimit? = none := by
    unfold push at h
    split at h
    · cases h
    · assumption
  have hfree' : ({ c with limit } : CallStack).reachedLimit? = none := by
    cases hk : limit with
    | none => rfl
    | some k' =>
      obtain ⟨k, hk₀, hle⟩ := hl k' hk
      have hk₀ : c.limit = some k := hk₀
      have hlt : ¬ k ≤ c.depth := by simpa [reachedLimit?, hk₀] using hfree
      have hlt' : ¬ k' ≤ c.depth := by omega
      show (some k').filter (· ≤ c.depth) = none
      simpa using hlt'
  obtain ⟨hf, -, -⟩ := push_eq_ok h
  simp only [push, hfree', hf]

/-- The snapshot with values below the operands. -/
def Snapshot.withBelow (below : Array Value) (s : Snapshot) : Snapshot :=
  { s with stack := below ++ s.stack }

namespace Machine

/-- The machine `n` is `m` with other values below its operand stack and another limit of frames. A
snapshot that was left since then shows these values. -/
def Lifted (u : Lift) (base : List Task) (m n : Machine) : Prop :=
  ∃ (ts : List Task) (published : Snapshot), m.tasks = ts ++ base ∧
    (published = m.published ∨ published = m.published.withBelow u.below) ∧
    n = { m with
      interp := m.interp.lift u
      tasks := ts.map (Task.raise u.below.size) ++ base
      published }

/-- An error is raised that may not come up with the values below, or with the other limit. -/
def Fails (u : Lift) (m : Machine) : Prop :=
  ∃ e, m.status = .raising e ∧
    (u.below ≠ #[] ∧ e = .stackUnderflow ∨ u.limit ≠ m.interp.calls.limit ∧ e.IsLimit)

/-- The result of a callback is taken next, and there is none. -/
def Misanswers (m : Machine) : Prop :=
  m.status = .proceeding ∧ ∃ returns depth servingBefore reply ts,
    m.tasks = .callback returns depth servingBefore reply :: ts ∧
      (Interp.callbackResult returns m.interp).1 = .error .stackUnderflow

/-- Performing the task makes a list of all the values on the operand stack, for the program that
asks for the member `Stack` of its own run. -/
def PerformsRead (m : Machine) : Task → Prop
  | .element v => m.requests = [] ∧ m.breaksIn = false ∧ Interp.ReadsStack v m.interp
  | .resolve v => Interp.ReadsStack v m.interp
  | .execute member => ∃ count i,
      Interp.popping OperandStack.popCount m.interp = (.ok count, i) ∧
        Interp.AsksForStack member count i
  | _ => False

/-- The next step reads the operand stack. -/
def ReadsStack (m : Machine) : Prop :=
  m.status = .proceeding ∧ ∃ t ts, m.tasks = t :: ts ∧ m.PerformsRead t

section Lifted

variable {u : Lift} {base : List Task} {m n : Machine}

/-! ## What tasks do on a lifted stack -/

theorem Lifted.interp_eq (h : Lifted u base m n) : n.interp = m.interp.lift u := by
  obtain ⟨ts, p, -, -, rfl⟩ := h
  rfl

theorem Lifted.with_interp (h : Lifted u base m n) (i : Interp) :
    Lifted u base { m with interp := i } { n with interp := i.lift u } := by
  obtain ⟨ts, p, ht, hp, rfl⟩ := h
  exact ⟨ts, p, ht, hp, rfl⟩

theorem Lifted.with_status (h : Lifted u base m n) (status : Status) :
    Lifted u base { m with status } { n with status } := by
  obtain ⟨ts, p, ht, hp, rfl⟩ := h
  exact ⟨ts, p, ht, hp, rfl⟩

theorem Lifted.before (h : Lifted u base m n) (t : Task) :
    Lifted u base (m.before t) (n.before (t.raise u.below.size)) := by
  obtain ⟨ts, p, ht, hp, rfl⟩ := h
  exact ⟨t :: ts, p, by simp [Machine.before, ht], hp, rfl⟩

theorem Lifted.enter (h : Lifted u base m n) (hl : Loosens m.interp.calls.limit u.limit)
    (items : ListId) (after : List Task) : (m.enter items after).Fails u ∨
      Lifted u base (m.enter items after)
        (n.enter items (after.map (Task.raise u.below.size))) := by
  obtain ⟨ts, p, ht, hp, rfl⟩ := h
  unfold Machine.enter
  rcases hpush : m.interp.calls.push items (m.interp.putWords.depth - 1) with ⟨e | _, calls⟩
  · obtain ⟨rfl, he⟩ := CallStack.push_eq_error hpush
    by_cases hlimit : u.limit = m.interp.calls.limit
    · refine .inr ⟨after ++ ts, p, by simp [ht], hp, ?_⟩
      dsimp only [Interp.lift]
      rw [hlimit, hpush]
      simp
    · exact .inl ⟨e, rfl, .inr ⟨hlimit, he⟩⟩
  · have hpush' := CallStack.push_lift hl hpush
    refine .inr ⟨.walk items 0 :: (after ++ ts), p, by simp [ht], hp, ?_⟩
    dsimp only [Interp.lift]
    rw [hpush']
    simp [Task.raise]

theorem Lifted.deliver (h : Lifted u base m n) (r : Except EvalError (Option Value))
    (reply : Reply) : Lifted u base (m.deliver r reply) (n.deliver r reply) := by
  cases reply with
  | toMember site k => exact h.before (.member site (k r))
  | toCaller ticket =>
    obtain ⟨ts, p, ht, hp, rfl⟩ := h
    exact ⟨ts, p, ht, hp, rfl⟩

theorem Lifted.callback (h : Lifted u base m n) (hl : Loosens m.interp.calls.limit u.limit)
    (c : Callback) (args : Array Value) (reply : Reply) (serving : Bool) :
    (m.callback c args reply serving).Fails u ∨
      Lifted u base (m.callback c args reply serving) (n.callback c args reply serving) := by
  unfold Machine.callback
  split
  · obtain ⟨ts, p, ht, hp, rfl⟩ := h
    let m₁ : Machine := { m with
      interp := { m.interp with stack := ⟨m.interp.stack.values ++ args⟩ }, serving }
    have h₁ : Lifted u base m₁ { m with
        interp := { m.interp.lift u with stack := ⟨(m.interp.lift u).stack.values ++ args⟩ }
        tasks := ts.map (Task.raise u.below.size) ++ base, serving, published := p } :=
      ⟨ts, p, ht, hp, by simp [m₁, Interp.lift, OperandStack.lift, Array.append_assoc]⟩
    exact h₁.enter hl c.body [.callback c.signature.returns m.interp.calls.depth m.serving reply]
  · exact .inr (h.deliver _ _)

theorem Lifted.serve (h : Lifted u base m n) (hl : Loosens m.interp.calls.limit u.limit)
    (r : Request) : (m.serve r).Fails u ∨ Lifted u base (m.serve r) (n.serve r) :=
  h.callback hl _ _ _ _

/-- A request is taken while a task waits. -/
theorem Lifted.served (h : Lifted u base m n) (hl : Loosens m.interp.calls.limit u.limit)
    (r : Request) (requests : List Request) (t : Task) :
    ({ m with requests }.before t |>.serve r).Fails u ∨
      Lifted u base ({ m with requests }.before t |>.serve r)
        ({ n with requests }.before (t.raise u.below.size) |>.serve r) := by
  obtain ⟨ts, p, ht, hp, rfl⟩ := h
  have hwaits : Lifted u base ({ m with requests }.before t) _ :=
    Lifted.before (m := { m with requests }) ⟨ts, p, ht, hp, rfl⟩ t
  exact hwaits.serve hl r

theorem Lifted.endCallback (h : Lifted u base m n) (depth : Nat) (servingBefore : Bool)
    (reply : Reply) (r : Except EvalError (Option Value)) :
    Lifted u base (m.endCallback depth servingBefore reply r)
      (n.endCallback depth servingBefore reply r) := by
  obtain ⟨ts, p, ht, hp, rfl⟩ := h
  -- The result decides only which frames are left.
  have ended (calls : CallStack) : Lifted u base
      { m with
        interp := { m.interp with calls }, serving := servingBefore, status := .proceeding }
      { m with
        interp := { m.interp with calls }.lift u, serving := servingBefore, status := .proceeding
        tasks := ts.map (Task.raise u.below.size) ++ base, published := p } :=
    ⟨ts, p, ht, hp, rfl⟩
  cases r with
  | ok v => exact (ended m.interp.calls).deliver _ reply
  | error e => exact (ended (m.interp.calls.truncate depth)).deliver _ reply

theorem Lifted.observed_eq (h : Lifted u base m n) : n.observed = m.observed := by
  obtain ⟨ts, p, -, -, rfl⟩ := h
  rfl

theorem Lifted.queue (h : Lifted u base m n) (e : Event) :
    Lifted u base (m.queue e) (n.queue e) := by
  obtain ⟨ts, p, ht, hp, rfl⟩ := h
  unfold Machine.queue
  dsimp only
  split <;> exact ⟨ts, p, ht, hp, rfl⟩

theorem Lifted.notify (h : Lifted u base m n) (e : Event) :
    Lifted u base (m.notify e) (n.notify e) := by
  unfold Machine.notify
  rw [h.observed_eq]
  split
  · exact h.with_status _
  · exact h.queue e

theorem Lifted.pause (h : Lifted u base m n) (e : Event) :
    Lifted u base (m.pause e) (n.pause e) := by
  obtain ⟨ts, p, ht, hp, rfl⟩ := h
  obtain ⟨_, _, _, serving, _, ⟨dispatch, listening, _⟩, _, _, _, _⟩ := m
  have hshown : ∀ i : Interp, ∀ running paused,
      (i.lift u).snapshot running paused = (i.snapshot running paused).withBelow u.below :=
    fun _ _ _ => rfl
  cases serving
  · cases listening <;> cases dispatch <;> exact ⟨ts, _, ht, .inr (hshown _ _ _), rfl⟩
  · cases listening <;> cases dispatch <;> exact ⟨ts, _, ht, hp, rfl⟩

theorem Lifted.marshal (h : Lifted u base m n) (call : HostCall) (keep : Bool) :
    Lifted u base (m.marshal call keep) (n.marshal call keep) := by
  have ho := h.observed_eq
  obtain ⟨ts, p, ht, hp, rfl⟩ := h
  unfold Machine.marshal
  dsimp only
  rw [ho]
  split
  · exact ⟨ts, p, ht, hp, rfl⟩
  · exact Lifted.before (m := m) ⟨ts, p, ht, hp, rfl⟩ (.member _ _)

theorem Lifted.follow (h : Lifted u base m n) (hl : Loosens m.interp.calls.limit u.limit)
    (next : Next) : (m.follow next).Fails u ∨
      Lifted u base (m.follow next) (n.follow (next.raise u.below.size)) := by
  cases next with
  | done => exact .inr h
  | walk items after => exact h.enter hl items after
  | pause => exact .inr (h.pause _)
  | write channel message => exact .inr (h.notify _)
  | call call keep => exact .inr (h.marshal call keep)

theorem Lifted.act (h : Lifted u base m n) {word word' : Eval Next}
    (hw : u.Carries (Next.raise u.below.size) word word' m.interp)
    (hl : Loosens (word m.interp).2.calls.limit u.limit) :
    (m.act word).Fails u ∨ Lifted u base (m.act word) (n.act word') := by
  unfold Machine.act
  rw [h.interp_eq]
  rcases hr : word m.interp with ⟨e | next, i⟩
  · by_cases hu : u.below = #[] ∨ e ≠ .stackUnderflow
    · rw [hw.error e i hu hr]
      exact .inr ((h.with_interp i).with_status _)
    · obtain ⟨hbelow, he⟩ := not_or.1 hu
      exact .inl ⟨e, rfl, .inl ⟨hbelow, Classical.not_not.1 he⟩⟩
  · rw [hw.ok next i hr]
    rw [hr] at hl
    exact (h.with_interp i).follow hl next

theorem Lifted.callbackFromMember (h : Lifted u base m n)
    (hl : Loosens m.interp.calls.limit u.limit) (site : CallSite) (c : Callback)
    (args : Array Value) (k : Except CallbackError (Option Value) → HostProgram (Option Value)) :
    (m.callbackFromMember site c args k).Fails u ∨
      Lifted u base (m.callbackFromMember site c args k) (n.callbackFromMember site c args k) := by
  unfold Machine.callbackFromMember
  split
  · exact .inr (h.before (.member _ _))
  · split
    · exact .inr (h.before (.member _ _))
    · split
      · exact .inr (h.before (.member _ _))
      · exact h.callback hl _ _ _ _

theorem Lifted.member (h : Lifted u base m n) (hl : Loosens m.interp.calls.limit u.limit)
    (site : CallSite) (program : HostProgram (Option Value)) :
    (m.member site program).Fails u ∨
      Lifted u base (m.member site program) (n.member site program) := by
  have hcall := h.callback hl
  have hfail := h.with_status
  cases program with
  | done r =>
    obtain ⟨ts, p, ht, hp, rfl⟩ := h
    simp only [Machine.member]
    split
    · refine .inr ⟨ts, p, ht, hp, ?_⟩
      simp [Interp.lift, OperandStack.lift, OperandStack.push]
    · exact .inr ⟨ts, p, ht, hp, rfl⟩
  | fail e => exact .inr (hfail _)
  | read k =>
    obtain ⟨ts, p, ht, hp, rfl⟩ := h
    exact .inr (Lifted.before (m := m) ⟨ts, p, ht, hp, rfl⟩ (.member site (k m.interp.store)))
  | write f k =>
    obtain ⟨ts, p, ht, hp, rfl⟩ := h
    exact .inr (Lifted.before
      (m := { m with interp := { m.interp with store := f m.interp.store } })
      ⟨ts, p, ht, hp, rfl⟩ (.member site k))
  | call c args k =>
    obtain ⟨ts, p, ht, hp, rfl⟩ := h
    exact hcall c args (.toMember site k) (m.serving || site.remote)
  | invoke c args k => exact h.callbackFromMember hl site c args k

theorem Lifted.resolve (h : Lifted u base m n) (hl : Loosens m.interp.calls.limit u.limit)
    {v : Value} (hv : u.below = #[] ∨ ¬ Interp.ReadsStack v m.interp) :
    (m.act (Interp.resolve v)).Fails u ∨
      Lifted u base (m.act (Interp.resolve v)) (n.act (Interp.resolve v)) :=
  h.act (Interp.keeps_resolve hv) (.of_persists (Interp.resolve_persists v m.interp) hl)

theorem Lifted.element (h : Lifted u base m n) (hl : Loosens m.interp.calls.limit u.limit)
    {v : Value} (hv : u.below = #[] ∨ ¬ m.PerformsRead (.element v)) :
    (m.element v).Fails u ∨ Lifted u base (m.element v) (n.element v) := by
  have hserved := h.served hl
  have hresolve := h.resolve hl (v := v)
  obtain ⟨ts, p, ht, hp, rfl⟩ := h
  unfold Machine.element
  dsimp only
  split
  · next r requests _ => exact hserved r requests (.element v)
  · next hr =>
    split
    · have h₁ : Lifted u base
          ({ m with gate := { m.gate with stepNext := false } }.before (.resolve v)) _ :=
        Lifted.before (m := { m with gate := { m.gate with stepNext := false } })
          ⟨ts, p, ht, hp, rfl⟩ (.resolve v)
      exact .inr (h₁.pause .stepping)
    · next hstep =>
      refine hresolve (hv.imp id fun hn hread => hn ⟨hr, ?_, hread⟩)
      simpa [breaksIn, hr] using hstep

/-- A word that performs a task, and leaves the limit as it is. -/
theorem Lifted.act_edits (h : Lifted u base m n) (hl : Loosens m.interp.calls.limit u.limit)
    {word word' : Eval Next} (hw : u.Carries (Next.raise u.below.size) word word' m.interp)
    (he : ByEdits word Next.Orderly) :
    (m.act word).Fails u ∨ Lifted u base (m.act word) (n.act word') :=
  h.act hw (.of_persists (he m.interp).1.persists hl)

/-- The result of a callback is the same, if it is not lacking. -/
theorem Lifted.callbackResult_eq {returns : Option HostType} (h : Lifted u base m n)
    (hanswer : u.below = #[] ∨
      (Interp.callbackResult returns m.interp).1 ≠ .error .stackUnderflow) :
    Interp.callbackResult returns n.interp = ((Interp.callbackResult returns m.interp).1,
      (Interp.callbackResult returns m.interp).2.lift u) := by
  have hcarried := Interp.lifts_callbackResult (u := u) returns m.interp
  rw [h.interp_eq]
  rcases hr : Interp.callbackResult returns m.interp with ⟨e | v, i⟩
  · refine hcarried.error e i (hanswer.imp id fun hok he => ?_) hr
    exact hok (by rw [hr, he])
  · exact hcarried.ok v i hr

theorem Lifted.perform (h : Lifted u base m n) (hl : Loosens m.interp.calls.limit u.limit)
    (t : Task) (hread : u.below = #[] ∨ ¬ m.PerformsRead t)
    (hanswer : u.below = #[] ∨ ∀ returns depth servingBefore reply,
      t = .callback returns depth servingBefore reply →
      (Interp.callbackResult returns m.interp).1 ≠ .error .stackUnderflow) :
    (m.perform t).Fails u ∨
      Lifted u base (m.perform t) (n.perform (t.raise u.below.size)) := by
  cases t with
  | walk items position =>
    obtain ⟨ts, p, ht, hp, rfl⟩ := h
    simp only [Machine.perform, Task.raise, Interp.lift]
    split
    · next v _ =>
      refine .inr ⟨.element v :: .walk items (position + 1) :: ts, p, by simp [ht], hp, ?_⟩
      rfl
    · exact .inr ⟨ts, p, ht, hp, rfl⟩
  | element v => exact h.element hl hread
  | resolve v => exact h.resolve hl hread
  | leaveScope =>
    obtain ⟨ts, p, ht, hp, rfl⟩ := h
    exact .inr ⟨ts, p, ht, hp, rfl⟩
  | branch body => exact h.act_edits hl (Interp.keeps_branchOn body _) (Interp.edits_branchOn body)
  | loop condition body =>
    exact h.act_edits hl (Interp.keeps_loopOn condition body _) (Interp.edits_loopOn condition body)
  | again condition body =>
    exact h.act_edits hl (Interp.keeps_walkValue condition rfl _)
      (Interp.edits_walkValue condition (by simp [Task.FollowsUp]))
  | countAbove height =>
    exact h.act_edits hl (Interp.keeps_countAbove height _) (Interp.edits_countAbove height)
  | execute name =>
    refine h.act_edits hl (Interp.keeps_executeCounted (hread.imp id fun hn count j hj ha => ?_))
      (Interp.edits_executeCounted name)
    exact hn ⟨count, j, hj, ha⟩
  | makeDelegate =>
    exact h.act_edits hl (Interp.keeps_delegateCounted _) Interp.edits_delegateCounted
  | callback returns depth servingBefore reply =>
    have hsame := h.callbackResult_eq (hanswer.imp id fun hok => hok _ _ _ _ rfl)
    simp only [Machine.perform, Task.raise, hsame]
    exact .inr ((h.with_interp _).endCallback depth servingBefore reply _)
  | member site program =>
    have hserved := h.served hl
    have hmember := h.member hl site program
    obtain ⟨ts, p, ht, hp, rfl⟩ := h
    simp only [Machine.perform, Task.raise]
    split
    · next r requests _ _ => exact hserved r requests (.member site program)
    · exact hmember

theorem Lifted.unwind (h : Lifted u base m n) (e : EvalError) (t : Task) :
    Lifted u base (m.unwind e t) (n.unwind e (t.raise u.below.size)) := by
  cases t with
  | callback returns depth servingBefore reply =>
    exact h.endCallback depth servingBefore reply (.error e)
  | leaveScope =>
    obtain ⟨ts, p, ht, hp, rfl⟩ := h
    exact ⟨ts, p, ht, hp, rfl⟩
  | _ => exact h

/-! ## Moves on a lifted stack -/

theorem Lifted.returned_iff (h : Lifted u base m n) (r : Except EvalError Unit) :
    m.Returned base r ↔ n.Returned base r := by
  obtain ⟨ts, p, ht, hp, rfl⟩ := h
  simp [Returned, ht]

theorem Lifted.status_eq (h : Lifted u base m n) : n.status = m.status := by
  obtain ⟨ts, p, -, -, rfl⟩ := h
  rfl

/-- The next task is the same, and so is what is left to do after it. -/
theorem Lifted.tail {t : Task} {ts : List Task} (h : Lifted u base m n)
    (ht : m.tasks = t :: ts ++ base) :
    n.tasks = t.raise u.below.size :: (ts.map (Task.raise u.below.size) ++ base) ∧
      Lifted u base { m with tasks := ts ++ base }
        { n with tasks := ts.map (Task.raise u.below.size) ++ base } := by
  obtain ⟨ts', p, ht', hp, rfl⟩ := h
  obtain rfl : ts' = t :: ts := List.append_cancel_right (ht'.symm.trans ht)
  exact ⟨rfl, ts, p, rfl, hp, rfl⟩

theorem Lifted.step (h : Lifted u base m n) (hl : Loosens m.interp.calls.limit u.limit)
    (hn : ∀ r, ¬ m.Returned base r) (hread : u.below = #[] ∨ ¬ m.ReadsStack)
    (hanswer : u.below = #[] ∨ ¬ m.Misanswers) :
    m.step.Fails u ∨ Lifted u base m.step n.step := by
  by_cases hw : m.status.phase = .waiting
  · rw [step_of_waiting hw, step_of_waiting (h.status_eq ▸ hw)]
    exact .inr h
  obtain ⟨ts, p, ht, -, -⟩ := id h
  cases ts with
  | nil =>
    obtain ⟨r, hr⟩ := returned_of_phase hw ht
    exact absurd hr (hn r)
  | cons t ts =>
    obtain ⟨htn, hrest⟩ := h.tail ht
    obtain ⟨e | _, -, hs⟩ := returned_of_phase hw rfl
    · rw [step_of_raising hs ht, step_of_raising (h.status_eq.trans hs) htn]
      exact .inr (hrest.unwind e t)
    · rw [step_of_proceeding hs ht, step_of_proceeding (h.status_eq.trans hs) htn]
      refine hrest.perform hl t (hread.imp id fun hnot hreads => ?_)
        (hanswer.imp id fun hnot returns depth servingBefore reply he => ?_)
      · refine hnot ⟨hs, t, ts ++ base, ht, ?_⟩
        cases t <;> exact hreads
      · exact fun hv => hnot ⟨hs, returns, depth, servingBefore, reply, ts ++ base, he ▸ ht, hv⟩

theorem Lifted.take (h : Lifted u base m n) :
    n.take.1 = m.take.1 ∧ Lifted u base m.take.2 n.take.2 := by
  obtain ⟨ts, p, ht, hp, rfl⟩ := h
  unfold Machine.take
  dsimp only
  split
  · exact ⟨rfl, ts, p, ht, hp, rfl⟩
  · next site call _ =>
    refine ⟨rfl, Lifted.before (m := { m with status := .proceeding }) ?_
      (.member { site with remote := true } (m.interp.setting.registry.invoke call))⟩
    exact ⟨ts, p, ht, hp, rfl⟩
  · exact ⟨rfl, ts, p, ht, hp, rfl⟩

/-- The observer hears the same, and the machine goes on the same way. -/
theorem Lifted.receive (h : Lifted u base m n) :
    n.receive.1 = m.receive.1 ∧ Lifted u base m.receive.2 n.receive.2 := by
  have htake := h.take
  obtain ⟨ts, p, ht, hp, rfl⟩ := h
  unfold Machine.receive
  dsimp only
  split
  · exact ⟨rfl, ts, p, ht, hp, rfl⟩
  · exact htake

theorem Lifted.dropObserver (h : Lifted u base m n) :
    Lifted u base m.dropObserver n.dropObserver := by
  obtain ⟨ts, p, ht, hp, rfl⟩ := h
  unfold Machine.dropObserver
  dsimp only
  split
  · exact ⟨ts, p, ht, hp, rfl⟩
  · next site call _ =>
    refine Lifted.before (m := { m with
      status := .proceeding, outbox := { m.outbox with listening := false } }) ?_
      (.member site (m.interp.setting.registry.invoke call))
    exact ⟨ts, p, ht, hp, rfl⟩
  · exact ⟨ts, p, ht, hp, rfl⟩

theorem Lifted.notice_eq (h : Lifted u base m n) (x : Move) : n.notice? x = m.notice? x := by
  cases x with
  | receive => exact h.receive.1
  | _ => rfl

/-- The two machines make the same move, unless the first one fails in it. -/
theorem Lifted.move (h : Lifted u base m n) (hl : Loosens m.interp.calls.limit u.limit)
    (hn : ∀ r, ¬ m.Returned base r) (x : Move)
    (hread : u.below = #[] ∨ (x = .step → ¬ m.ReadsStack))
    (hanswer : u.below = #[] ∨ (x = .step → ¬ m.Misanswers)) :
    (m.move x).Fails u ∨ Lifted u base (m.move x) (n.move x) := by
  cases x with
  | step => exact h.step hl hn (hread.imp id fun h => h rfl) (hanswer.imp id fun h => h rfl)
  | receive => exact .inr h.receive.2
  | resume stepNext =>
    obtain ⟨ts, p, ht, hp, rfl⟩ := h
    exact .inr ⟨ts, p, ht, hp, rfl⟩
  | request r =>
    obtain ⟨ts, p, ht, hp, rfl⟩ := h
    exact .inr ⟨ts, p, ht, hp, rfl⟩
  | dropObserver => exact .inr h.dropObserver

/-- A run that does not fail is made on the lifted stack too, and the observer hears the same. -/
theorem Run.lifted {m' : Machine} {xs : List Move} (hrun : Run base m xs m')
    (h : Lifted u base m n) (hl : Loosens m.interp.calls.limit u.limit)
    (hfail : Throughout (fun m₁ => ¬ m₁.Fails u) m xs)
    (hread : u.below = #[] ∨ Avoids ReadsStack m xs)
    (hanswer : u.below = #[] ∨ Avoids Misanswers m xs) :
    ∃ n', Run base n xs n' ∧ Lifted u base m' n' ∧ n.heard xs = m.heard xs := by
  induction hrun with
  | refl => exact ⟨n, .refl n, h, rfl⟩
  | @snoc m₁ xs x hrun hn ih =>
    rw [throughout_snoc, ← hrun.eq_foldl] at hfail
    rw [avoids_snoc, ← hrun.eq_foldl] at hread hanswer
    obtain ⟨n₁, hrun₁, h₁, hheard⟩ :=
      ih hfail.1 (hread.imp id And.left) (hanswer.imp id And.left)
    have hmove := h₁.move (.of_persists hrun.persists hl) hn x (hread.imp id And.right)
      (hanswer.imp id And.right)
    have hn₁ (r : Except EvalError Unit) : ¬ n₁.Returned base r := fun hr =>
      hn r ((h₁.returned_iff r).2 hr)
    refine ⟨n₁.move x, .snoc x hrun₁ hn₁, hmove.resolve_left hfail.2, ?_⟩
    rw [hrun.heard_snoc, hrun₁.heard_snoc, hheard, h₁.notice_eq]

end Lifted

end Machine

end WordStack
