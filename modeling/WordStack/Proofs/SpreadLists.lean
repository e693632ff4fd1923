import WordStack.Proofs.Announcing
import WordStack.Proofs.Failures
import WordStack.Proofs.Frames
import WordStack.Proofs.KeyLists
import WordStack.Proofs.Trees

/-!
# Lists spread over the stack

The elements of a list come onto the stack in two ways: `split` copies them, and
`evaluate-and-split` walks the list and counts what that has left. Where no element is a word with a
meaning, both come to the same. Each element is then pushed as it is, so a walk has pushed what is
in the list up to its position, and it is held up by nothing but the debugger (`Spreading`,
`Spreading.move`). When the walk is over, its frame is gone and the number of elements is counted
(`Run.spread`). The other way round, `join` makes a new list of values, which shares nothing with
the list that they have come from.
-/

namespace WordStack

namespace Interp

/-- A value that is pushed where it is processed: no symbol, or a symbol without a meaning. -/
def Inert (i : Interp) (v : Value) : Prop :=
  ∀ name, v = .symbol name → i.putWords.get? name = none ∧ i.setWords.get? name = none

variable {i : Interp} {v : Value} {rest vs : List Value} {l : ListId} {n : Int64}

theorem resolve_of_inert (h : i.Inert v) : resolve v i = thenDone (push v) i := by
  cases v with
  | symbol name =>
    obtain ⟨hput, hset⟩ := h name rfl
    have hget : (get : Eval Interp) i = (.ok i, i) := rfl
    rw [resolve, bind_of_ok hget, hput]
    dsimp only
    rw [hset]
  | _ => rfl

/-! ## Operands of a kind -/

theorem popping_withStack {α : Type} {p : Store → Popping α} {r : Except EvalError α}
    {us : List Value} (h : p i.store ⟨vs.toArray⟩ = (r, ⟨us.toArray⟩)) :
    popping p (i.withStack vs) = (r, i.withStack us) := by
  have hpopping : popping p (i.withStack vs) =
      ((p i.store ⟨vs.toArray⟩).1, { i with stack := (p i.store ⟨vs.toArray⟩).2 }) := rfl
  rw [hpopping, h]
  rfl

theorem popAs_withStack {α : Type} {expected : String} {pick : Value → Option α} {a : α}
    (h : pick v = some a) :
    popping (fun s => OperandStack.popAs s expected pick) (i.withStack (rest ++ [v])) =
      (.ok a, i.withStack rest) := by
  have hpop : OperandStack.pop ⟨(rest ++ [v]).toArray⟩ = (.ok v, ⟨rest.toArray⟩) := by
    simp [OperandStack.pop]
  refine popping_withStack ?_
  simp only [OperandStack.popAs, bind, ExceptT.bind, ExceptT.mk, StateT.bind, hpop,
    ExceptT.bindCont, h]
  rfl

theorem popCount_withStack {count : Nat} (hn : n.toInt = count) :
    popping OperandStack.popCount (i.withStack (rest ++ [.integer n])) =
      (.ok count, i.withStack rest) := by
  refine popAs_withStack ?_
  simp [hn]

theorem peek_withStack :
    popping (fun _ => OperandStack.peek) (i.withStack (rest ++ [v])) =
      (.ok v, i.withStack (rest ++ [v])) := by
  refine popping_withStack ?_
  simp [OperandStack.peek]

theorem popMany_withStack :
    popping (fun _ => OperandStack.popMany vs.length) (i.withStack (rest ++ vs)) =
      (.ok vs.toArray, i.withStack rest) := by
  refine popping_withStack ?_
  simp [OperandStack.popMany]

/-! ## Splitting and joining -/

/-- The state with these operands, and with one more frame. -/
def inWalk (i : Interp) (f : Frame) (vs : List Value) : Interp :=
  { i.withStack vs with calls := { i.calls with frames := i.calls.frames.push f } }

variable {f : Frame}

theorem push_inWalk : push v (i.inWalk f vs) = (.ok (), i.inWalk f (vs ++ [v])) := by
  have hpush : (⟨vs.toArray⟩ : OperandStack).push v = ⟨(vs ++ [v]).toArray⟩ := by
    simp [OperandStack.push]
  change (Except.ok (), { i.inWalk f vs with stack := (⟨vs.toArray⟩ : OperandStack).push v }) = _
  rw [hpush]
  rfl

theorem setCursor_inWalk : { i.inWalk f vs with calls := (i.inWalk f vs).calls.setCursor v } =
    i.inWalk { f with cursor := some v } vs := by
  have hframes : (i.inWalk f vs).calls.frames.toList = i.calls.frames.toList ++ [f] :=
    Array.toList_push
  have hcalls : (i.inWalk f vs).calls.setCursor v =
      { i.calls with frames := i.calls.frames.push { f with cursor := some v } } :=
    CallStack.eq_of_toList (by rw [CallStack.setCursor_toList hframes, Array.toList_push]) rfl
  rw [hcalls]
  rfl

theorem pop_inWalk :
    { i.inWalk f vs with calls := (i.inWalk f vs).calls.pop } = i.withStack vs := by
  simp [inWalk, CallStack.pop, withStack]

theorem resolve_inWalk (h : i.Inert v) :
    resolve v (i.inWalk f vs) = (.ok .done, i.inWalk f (vs ++ [v])) := by
  have hinert : (i.inWalk f vs).Inert v := h
  rw [resolve_of_inert hinert, thenDone_apply, push_inWalk]
  rfl

theorem countAbove_withStack : countAbove rest.length (i.withStack (rest ++ vs)) =
    (.ok .done, i.withStack (rest ++ vs ++ [.integer (Int64.ofInt vs.length)])) := by
  have hget : (get : Eval Interp) (i.withStack (rest ++ vs)) =
      (.ok (i.withStack (rest ++ vs)), i.withStack (rest ++ vs)) := rfl
  have hcount : ((i.withStack (rest ++ vs)).stack.size : Int) - rest.length = vs.length := by
    simp only [withStack, OperandStack.size, List.size_toArray, List.length_append]
    omega
  rw [countAbove, bind_of_ok hget, hcount, bind_of_ok push_withStack]
  rfl

theorem evaluateAndSplit_withStack (after : List Task) :
    evaluateAndSplit after (i.withStack (rest ++ [.list l])) =
      (.ok (.walk l (.countAbove rest.length :: after)), i.withStack rest) := by
  have hget : (get : Eval Interp) (i.withStack rest) = (.ok (i.withStack rest), i.withStack rest) :=
    rfl
  rw [evaluateAndSplit, bind_of_ok pop_withStack_append, bind_of_ok hget]
  rfl

/-! ## Calls of a member with arguments -/

/-- Call a member with the arguments that have been taken for it. -/
def executeOn (member : String) (args : Array Value) : Eval Next := do
  let (subject, force) ← popSubject
  if isReflection (← get).store subject then
    let v ← reflect member args
    push v
    pure .done
  else
    let (type, target) := match subject, force with
      | .hostType type, false => (type, none)
      | _, _ => (Registry.typeOf subject, some subject)
    let (call, keep) ← memberCall type target member args
    pure (.call call keep)

theorem executeWith_eq (member : String) (count : Nat) : executeWith member count = (do
    let args ← popping fun _ => OperandStack.popMany count
    executeOn member args) := rfl

theorem execute_withStack {name : Value} {member : String} (hname : name.name? = some member) :
    execute (i.withStack (rest ++ [.list l, name])) =
      evaluateAndSplit [.execute member] (i.withStack (rest ++ [.list l])) := by
  have hstack : rest ++ [.list l, name] = rest ++ [.list l] ++ [name] := by simp
  have hpop : popping OperandStack.popName (i.withStack (rest ++ [.list l] ++ [name])) =
      (.ok member, i.withStack (rest ++ [.list l])) := popAs_withStack hname
  rw [hstack, execute, bind_of_ok hpop, bind_of_ok peek_withStack]

theorem executeCounted_withStack {member : String} (hn : n.toInt = vs.length) :
    executeCounted member (i.withStack (rest ++ vs ++ [.integer n])) =
      executeOn member vs.toArray (i.withStack rest) := by
  rw [executeCounted, bind_of_ok (popCount_withStack hn), executeWith_eq,
    bind_of_ok popMany_withStack]

end Interp

namespace Machine

variable {m m' : Machine} {x : Move}

/-! ## Moves beside a walk -/

/-- The machine goes on, or the debugger alone holds it up. -/
def Unhindered (m : Machine) : Prop := m.status = .proceeding ∨ m.AtPause

/-- The machine has not come any further, and is held up no more than before. -/
structure Beside (m m' : Machine) : Prop where
  interp : m'.interp = m.interp
  tasks : m'.tasks = m.tasks
  requests : m'.requests = m.requests
  unhindered : m'.Unhindered
  proceeding : m.status = .proceeding → m'.status = .proceeding

/-- What is no step, and asks for nothing, does nothing to what is done. -/
theorem beside_move (hm : m.Unhindered) (hx : x ≠ .step) (hr : ∀ r, x ≠ .request r) :
    m.Beside (m.move x) := by
  obtain ⟨_, _, status, _, _, ⟨_, _, _⟩, _, _, _, _⟩ := m
  cases x with
  | step => exact absurd rfl hx
  | request r => exact absurd rfl (hr r)
  | resume stepNext =>
    obtain hs | hs | ⟨e, hs⟩ := hm <;> cases hs
    · exact ⟨rfl, rfl, rfl, .inl rfl, fun _ => rfl⟩
    · exact ⟨rfl, rfl, rfl, .inl rfl, fun _ => rfl⟩
    · exact ⟨rfl, rfl, rfl, .inr (.inr ⟨e, rfl⟩), id⟩
  | dropObserver =>
    obtain hs | hs | ⟨e, hs⟩ := hm <;> cases hs
    · exact ⟨rfl, rfl, rfl, .inl rfl, fun _ => rfl⟩
    · exact ⟨rfl, rfl, rfl, .inr (.inl rfl), id⟩
    · exact ⟨rfl, rfl, rfl, .inl rfl, fun _ => rfl⟩
  | receive =>
    simp only [move, receive, take]
    split
    · exact ⟨rfl, rfl, rfl, hm, id⟩
    · obtain hs | hs | ⟨e, hs⟩ := hm <;> cases hs
      · exact ⟨rfl, rfl, rfl, .inl rfl, fun _ => rfl⟩
      · exact ⟨rfl, rfl, rfl, .inr (.inl rfl), id⟩
      · refine ⟨rfl, rfl, rfl, ?_, fun h => by cases h⟩
        dsimp only
        split
        · exact .inr (.inl rfl)
        · exact .inl rfl

/-- A pause ends when the debugger lets the run go on, or nobody observes it any more. -/
theorem exists_waking (hm : m.AtPause) :
    ∃ x, x ≠ .step ∧ (∀ r, x ≠ .request r) ∧ (m.move x).status = .proceeding := by
  obtain hs | ⟨e, hs⟩ := hm
  · refine ⟨.resume false, by simp, by simp, ?_⟩
    simp [move, resume, hs]
  · refine ⟨.dropObserver, by simp, by simp, ?_⟩
    simp [move, dropObserver, hs]

theorem pause_requests (m : Machine) (e : Event) : (m.pause e).requests = m.requests := by
  obtain ⟨_, _, _, serving, _, ⟨dispatch, listening, _⟩, _, _, _, _⟩ := m
  cases serving <;> cases listening <;> cases dispatch <;> rfl

theorem act_of_ok {word : Eval Next} {next : Next} {i : Interp}
    (h : word m.interp = (.ok next, i)) : m.act word = { m with interp := i }.follow next := by
  rw [act, h]

/-! ## Walks that push what they meet -/

/-- In the walk of the list `l`, with `rest` below on the stack: the first `p` elements have been
pushed, and the tasks `more` are next. -/
structure Within (i : Interp) (rest : List Value) (l : ListId) (next : List Task) (p : Nat)
    (more : List Task) (m : Machine) : Prop where
  requests : m.requests = []
  tasks : m.tasks = more ++ .countAbove rest.length :: next
  interp : ∃ f, m.interp = i.inWalk f (rest ++ (i.store.items l).toList.take p)

/-- How far the machine has come that walks the list `l` and counts, before the tasks `next`. The
number goes down with each step. -/
inductive Spreading (i : Interp) (rest : List Value) (l : ListId) (next : List Task) :
    Nat → Machine → Prop where
  | front {m : Machine} {p left : Nat} (hp : p + left = (i.store.items l).size)
      (hs : m.status = .proceeding) (h : Within i rest l next p [.walk l p] m) :
      Spreading i rest l next (3 * left + 2) m
  | element {m : Machine} {p left : Nat} {v : Value} (hp : p + left + 1 = (i.store.items l).size)
      (hv : (i.store.items l)[p]? = some v) (hs : m.status = .proceeding)
      (h : Within i rest l next p [.element v, .walk l (p + 1)] m) :
      Spreading i rest l next (3 * left + 4) m
  | announced {m : Machine} {p left : Nat} {v : Value}
      (hp : p + left + 1 = (i.store.items l).size) (hv : (i.store.items l)[p]? = some v)
      (hs : m.Unhindered) (h : Within i rest l next p [.resolve v, .walk l (p + 1)] m) :
      Spreading i rest l next (3 * left + 3) m
  | walked {m : Machine} (hs : m.status = .proceeding) (hr : m.requests = [])
      (ht : m.tasks = .countAbove rest.length :: next)
      (hi : m.interp = i.withStack (rest ++ (i.store.items l).toList)) :
      Spreading i rest l next 1 m
  | counted {m : Machine} (hs : m.status = .proceeding) (ht : m.tasks = next)
      (hi : m.interp = i.withStack (rest ++ (i.store.items l).toList ++
        [.integer (Int64.ofInt (i.store.items l).size)])) :
      Spreading i rest l next 0 m

variable {i : Interp} {rest : List Value} {l : ListId} {next base : List Task} {p left : Nat}
  {more : List Task} {v : Value}

theorem Within.beside (h : Within i rest l next p more m) (hb : m.Beside m') :
    Within i rest l next p more m' :=
  ⟨hb.requests.trans h.requests, hb.tasks.trans h.tasks, by rw [hb.interp]; exact h.interp⟩

theorem Within.behind {t : Task} (h : Within i rest l next p (t :: more) m) :
    Within i rest l next p more { m with tasks := more ++ .countAbove rest.length :: next } :=
  ⟨h.requests, rfl, h.interp⟩

theorem Spreading.tasks_eq (h : Spreading i rest l next left m) :
    ∃ ts, m.tasks = ts ++ next := by
  cases h with
  | front _ _ hw | element _ _ _ hw | announced _ _ _ hw =>
    exact ⟨_ ++ [.countAbove rest.length], hw.tasks.trans (List.append_cons ..)⟩
  | walked _ _ ht _ => exact ⟨[.countAbove rest.length], ht⟩
  | counted _ ht _ => exact ⟨[], ht⟩

theorem Spreading.unhindered (h : Spreading i rest l next left m) : m.Unhindered := by
  cases h with
  | announced _ _ hs _ => exact hs
  | front _ hs _ | element _ _ hs _ | walked hs _ _ _ | counted hs _ _ => exact .inl hs

theorem Spreading.beside (h : Spreading i rest l next left m) (hb : m.Beside m') :
    Spreading i rest l next left m' := by
  cases h with
  | front hp hs hw => exact .front hp (hb.proceeding hs) (hw.beside hb)
  | element hp hv hs hw => exact .element hp hv (hb.proceeding hs) (hw.beside hb)
  | announced hp hv _ hw => exact .announced hp hv hb.unhindered (hw.beside hb)
  | walked hs hr ht hi =>
    exact .walked (hb.proceeding hs) (hb.requests.trans hr) (hb.tasks.trans ht) (hb.interp.trans hi)
  | counted hs ht hi => exact .counted (hb.proceeding hs) (hb.tasks.trans ht) (hb.interp.trans hi)

/-- An element without a meaning is pushed, and the walk is at the next one. -/
theorem Within.resolved (h : Within i rest l next p [.walk l (p + 1)] m)
    (hs : m.status = .proceeding) (hp : p + left + 1 = (i.store.items l).size)
    (hv : (i.store.items l)[p]? = some v) (hinert : i.Inert v) :
    Spreading i rest l next (3 * left + 2) (m.act (Interp.resolve v)) := by
  obtain ⟨f, hf⟩ := h.interp
  have hword : Interp.resolve v m.interp =
      (.ok .done, i.inWalk f (rest ++ (i.store.items l).toList.take p ++ [v])) := by
    rw [hf, Interp.resolve_inWalk hinert]
  have htake : (i.store.items l).toList.take (p + 1) =
      (i.store.items l).toList.take p ++ [v] := by
    rw [List.take_add_one, Array.getElem?_toList, hv, Option.toList_some]
  rw [act_of_ok hword]
  refine .front (p := p + 1) (by omega) hs ⟨h.requests, h.tasks, f, ?_⟩
  rw [htake, ← List.append_assoc]
  rfl

/-- An element is processed, unless the debugger comes in before. -/
theorem Within.processed (h : Within i rest l next p [.walk l (p + 1)] m)
    (hs : m.status = .proceeding) (hp : p + left + 1 = (i.store.items l).size)
    (hv : (i.store.items l)[p]? = some v) (hinert : i.Inert v) :
    ∃ fewer < 3 * left + 4, Spreading i rest l next fewer (m.element v) := by
  by_cases hb : m.breaksIn = true
  · let held := { m with gate := { m.gate with stepNext := false } }.before (.resolve v)
    have htasks : held.tasks = [.resolve v, .walk l (p + 1)] ++ .countAbove rest.length :: next :=
      congrArg (Task.resolve v :: ·) h.tasks
    have hstatus : (held.pause .stepping).Unhindered :=
      (held.pause_status .stepping).imp_left fun hsame => hsame.trans hs
    rw [element_of_breaksIn v hb]
    refine ⟨3 * left + 3, by omega, .announced hp hv hstatus ⟨?_, ?_, ?_⟩⟩
    · exact (held.pause_requests .stepping).trans h.requests
    · exact (held.pause_control .stepping).1.trans htasks
    · rw [held.pause_interp]
      exact h.interp
  · rw [element_of_not_breaksIn v h.requests (by simpa using hb)]
    exact ⟨3 * left + 2, by omega, h.resolved hs hp hv hinert⟩

/-- A step takes the machine on. -/
theorem Spreading.step (h : Spreading i rest l next left m) (hs : m.status = .proceeding)
    (hleft : left ≠ 0) (hinert : ∀ v ∈ i.store.items l, i.Inert v) :
    ∃ fewer < left, Spreading i rest l next fewer m.step := by
  cases h with
  | @front _ p left hp _ hw =>
    obtain ⟨f, hf⟩ := hw.interp
    have hstore : m.interp.store = i.store := by rw [hf]; rfl
    rw [step_of_proceeding hs hw.tasks]
    simp only [perform, hstore]
    cases hv : (i.store.items l)[p]? with
    | none =>
      have hsize : (i.store.items l).size ≤ p := Array.getElem?_eq_none_iff.1 hv
      have htake : (i.store.items l).toList.take p = (i.store.items l).toList :=
        List.take_of_length_le (by simpa using hsize)
      refine ⟨1, by omega, .walked hs hw.requests rfl ?_⟩
      rw [← htake]
      simp only [hf]
      exact Interp.pop_inWalk
    | some v =>
      have hlt : p < (i.store.items l).size := (Array.getElem?_eq_some_iff.1 hv).1
      obtain ⟨left, rfl⟩ : ∃ k, left = k + 1 := ⟨left - 1, by omega⟩
      refine ⟨3 * left + 4, by omega, .element (by omega) hv hs
        ⟨hw.requests, rfl, { f with cursor := some v }, ?_⟩⟩
      simp only [hf]
      exact Interp.setCursor_inWalk
  | @element _ p left v hp hv _ hw =>
    rw [step_of_proceeding hs hw.tasks]
    exact hw.behind.processed hs hp hv (hinert v (Array.mem_of_getElem? hv))
  | @announced _ p left v hp hv _ hw =>
    have hin := hinert v (Array.mem_of_getElem? hv)
    rw [step_of_proceeding hs hw.tasks]
    exact ⟨3 * left + 2, by omega, hw.behind.resolved hs hp hv hin⟩
  | walked _ hr ht hi =>
    have hword : Interp.countAbove rest.length m.interp =
        (.ok .done, i.withStack (rest ++ (i.store.items l).toList ++
          [.integer (Int64.ofInt (i.store.items l).size)])) := by
      rw [hi, Interp.countAbove_withStack, Array.length_toList]
    refine ⟨0, by omega, ?_⟩
    rw [step_of_proceeding hs ht, perform, act_of_ok (m := { m with tasks := next }) hword]
    exact .counted hs rfl rfl
  | counted _ ht hi => exact absurd rfl hleft

/-- No move leads away from the walk, unless it asks for something. -/
theorem Spreading.move (h : Spreading i rest l next left m) (hn : ∀ r, ¬ m.Returned next r)
    (hx : ∀ r, x ≠ .request r) (hinert : ∀ v ∈ i.store.items l, i.Inert v) :
    ∃ left', Spreading i rest l next left' (m.move x) := by
  by_cases hstep : x = .step
  · subst hstep
    rw [Machine.move]
    obtain hs | hpause := h.unhindered
    · have hleft : left ≠ 0 := by
        rintro rfl
        cases h with
        | counted hs ht _ => exact hn (.ok ()) ⟨ht, hs⟩
      obtain ⟨fewer, -, hfewer⟩ := h.step hs hleft hinert
      exact ⟨fewer, hfewer⟩
    · have hwaiting : m.status.phase = .waiting := by
        obtain hs | ⟨e, hs⟩ := hpause <;> rw [hs, Status.phase]
      rw [step_of_waiting hwaiting]
      exact ⟨left, h⟩
  · exact ⟨left, h.beside (beside_move h.unhindered hstep hx)⟩

/-- Until the elements are counted, more is to be done than what is next. -/
theorem Spreading.length_lt (h : Spreading i rest l next left m) (hleft : left ≠ 0) :
    next.length < m.tasks.length := by
  cases h with
  | front _ _ hw | element _ _ _ hw | announced _ _ _ hw =>
    rw [hw.tasks]
    simp only [List.length_append, List.length_cons]
    omega
  | walked _ _ ht _ =>
    rw [ht]
    exact Nat.lt_succ_self _
  | counted => exact absurd rfl hleft

theorem not_returned_of_lt (h : base.length < m.tasks.length) (r : Except EvalError Unit) :
    ¬ m.Returned base r := by
  rintro ⟨rfl, -⟩
  exact Nat.lt_irrefl _ h

/-- There is a run that spreads the list and counts its elements, as far as that is not done. -/
theorem Spreading.reaches (after : List Task) (h : Spreading i rest l (after ++ base) left m)
    (hinert : ∀ v ∈ i.store.items l, i.Inert v) :
    ∃ xs m', (∀ r, .request r ∉ xs) ∧ Run base m xs m' ∧
      Spreading i rest l (after ++ base) 0 m' := by
  induction left using Nat.strong_induction_on generalizing m with
  | _ left ih =>
  by_cases hleft : left = 0
  · subst hleft
    exact ⟨[], m, by simp, .refl m, h⟩
  · have pending {m : Machine} (h : Spreading i rest l (after ++ base) left m)
        (r : Except EvalError Unit) : ¬ m.Returned base r := by
      have hlt := h.length_lt hleft
      rw [List.length_append] at hlt
      exact not_returned_of_lt (by omega) r
    -- one step from where nothing holds the machine up
    have onward {m : Machine} (h : Spreading i rest l (after ++ base) left m)
        (hs : m.status = .proceeding) : ∃ xs m', (∀ r, .request r ∉ xs) ∧ Run base m xs m' ∧
          Spreading i rest l (after ++ base) 0 m' := by
      obtain ⟨fewer, hlt, hfewer⟩ := h.step hs hleft hinert
      obtain ⟨xs, m', hxs, hrun, hend⟩ := ih fewer hlt hfewer
      have hfirst : Run base m [.step] m.step := .snoc .step (.refl m) (pending h)
      exact ⟨.step :: xs, m', fun r hr => by simpa using hxs r (by simpa using hr),
        hfirst.trans hrun, hend⟩
    obtain hs | hpause := h.unhindered
    · exact onward h hs
    · obtain ⟨x, hx, hr, hwoken⟩ := exists_waking hpause
      have hbeside := h.beside (beside_move h.unhindered hx hr)
      obtain ⟨xs, m', hxs, hrun, hend⟩ := onward hbeside hwoken
      have hfirst : Run base m [x] (m.move x) := .snoc x (.refl m) (pending h)
      refine ⟨x :: xs, m', fun r hmem => ?_, hfirst.trans hrun, hend⟩
      rcases List.mem_cons.1 hmem with rfl | hmem
      · exact hr r rfl
      · exact hxs r hmem

end Machine

end WordStack
