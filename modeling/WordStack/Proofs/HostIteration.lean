import WordStack.Host.Core
import WordStack.Machine
import WordStack.Proofs.HostRuns

/-!
# Iteration in the host

The members of the core module that call back once for each element of a list, or each handler of a
signal. `Rounds` says what such a row of calls is, whatever the callbacks do to the store and to the
state of their context: each call is made in what the one before it left, and the first one that
fails, or whose answer is not accepted, is the last. The calls themselves are those of the elements
or the handlers as they are when the member begins (`host_iteration_on_snapshot`), so that what the
callbacks do to the list or to the signal adds no call and takes none away. A failure comes out of
the host call with the root cause that it had in the callback.
-/

namespace WordStack

namespace HostProgram

variable {σ β : Type}

/-- Calls made in order, with what is accepted of their answers, up to the first failure. A call is
made in the store and the state that are left by the one before it. -/
inductive Rounds (ctx : CallbackContext σ) (accept : Store → Option Value → Except HostError β) :
    List (Callback × Array Value) → Store → σ → List β → Except HostError Unit → Store → σ →
      Prop where
  | ended {s : Store} {x : σ} : Rounds ctx accept [] s x [] (.ok ()) s x
  | next {c : Callback} {args : Array Value} {calls : List (Callback × Array Value)}
      {s s₁ s₂ : Store} {x x₁ x₂ : σ} {r : Option Value} {b : β} {bs : List β}
      {ending : Except HostError Unit} :
      ctx.call c args s x = (.ok r, s₁, x₁) → accept s₁ r = .ok b →
      Rounds ctx accept calls s₁ x₁ bs ending s₂ x₂ →
      Rounds ctx accept ((c, args) :: calls) s x (b :: bs) ending s₂ x₂
  /-- What the callback returned is not accepted. -/
  | refused {c : Callback} {args : Array Value} {calls : List (Callback × Array Value)}
      {s s₁ : Store} {x x₁ : σ} {r : Option Value} {e : HostError} :
      ctx.call c args s x = (.ok r, s₁, x₁) → accept s₁ r = .error e →
      Rounds ctx accept ((c, args) :: calls) s x [] (.error e) s₁ x₁
  | failed {c : Callback} {args : Array Value} {calls : List (Callback × Array Value)}
      {s s₁ : Store} {x x₁ : σ} {e : EvalError} :
      ctx.call c args s x = (.error e, s₁, x₁) →
      Rounds ctx accept ((c, args) :: calls) s x [] (.error (.eval e)) s₁ x₁

/-- A row of calls that ends well has had an answer to each of them. -/
theorem Rounds.length_eq {ctx : CallbackContext σ}
    {accept : Store → Option Value → Except HostError β} {calls : List (Callback × Array Value)}
    {s s' : Store} {x x' : σ} {bs : List β} {ending : Except HostError Unit}
    (h : Rounds ctx accept calls s x bs ending s' x') (hend : ending = .ok ()) :
    bs.length = calls.length := by
  induction h with
  | ended => rfl
  | next _ _ _ ih => simp [ih hend]
  | refused => cases hend
  | failed => cases hend

/-- The program makes one call, and has what is accepted of its answer. -/
structure Answers (p : HostProgram β) (ctx : CallbackContext σ)
    (accept : Store → Option Value → Except HostError β) (c : Callback) (args : Array Value) :
    Prop where
  fails {s s₁ : Store} {x x₁ : σ} {e : EvalError} : ctx.call c args s x = (.error e, s₁, x₁) →
    p.runWith ctx s x = (.error (.eval e), s₁, x₁)
  accepts {s s₁ : Store} {x x₁ : σ} {r : Option Value} : ctx.call c args s x = (.ok r, s₁, x₁) →
    p.runWith ctx s x = (accept s₁ r, s₁, x₁)

/-- A loop over `γ` that answers one call in each turn, and then goes on with what `put` makes of
its results so far, makes the calls in order. -/
theorem rounds_of_loop {γ δ : Type} {ctx : CallbackContext σ}
    {accept : Store → Option Value → Except HostError β} (callOf : γ → Callback × Array Value)
    (turn : γ → HostProgram β) (loop : List γ → δ → HostProgram δ) (put : δ → γ → β → δ)
    (hturn : ∀ v, (turn v).Answers ctx accept (callOf v).1 (callOf v).2)
    (hnil : ∀ out, loop [] out = pure out)
    (hcons : ∀ v vs out s x, (loop (v :: vs) out).runWith ctx s x =
      (turn v >>= fun b => loop vs (put out v b)).runWith ctx s x)
    (vs : List γ) (out : δ) (s : Store) (x : σ) :
    ∃ bs ending s' x', Rounds ctx accept (vs.map callOf) s x bs ending s' x' ∧
      (loop vs out).runWith ctx s x =
        (ending.map fun _ => (vs.zip bs).foldl (fun out turned => put out turned.1 turned.2) out,
          s', x') := by
  induction vs generalizing out s x with
  | nil => exact ⟨[], .ok (), s, x, .ended, by rw [hnil]; rfl⟩
  | cons v vs ih =>
    rw [hcons]
    rcases hcall : ctx.call (callOf v).1 (callOf v).2 s x with ⟨e | r, s₁, x₁⟩
    · rw [runWith_bind_of_error ((hturn v).fails hcall)]
      exact ⟨[], .error (.eval e), s₁, x₁, .failed hcall, rfl⟩
    · have hrun := (hturn v).accepts hcall
      cases hr : accept s₁ r with
      | error e =>
        rw [hr] at hrun
        rw [runWith_bind_of_error hrun]
        exact ⟨[], .error e, s₁, x₁, .refused hcall hr, rfl⟩
      | ok b =>
        rw [hr] at hrun
        obtain ⟨bs, ending, s', x', hrounds, hrest⟩ := ih (put out v b) s₁ x₁
        rw [runWith_bind_of_ok hrun]
        exact ⟨b :: bs, ending, s', x', .next hcall hr hrounds, hrest⟩

/-- The program makes the calls in order, each of them once unless one fails, and then has the
result and leaves the store that are `yielded`, or fails as the calls did. -/
def Iterates (p : HostProgram (Option Value)) (ctx : CallbackContext σ)
    (accept : Store → Option Value → Except HostError β) (calls : List (Callback × Array Value))
    (s : Store) (x : σ) (yielded : List β → Store → Option Value × Store) : Prop :=
  ∃ bs ending s' x', Rounds ctx accept calls s x bs ending s' x' ∧
    (ending = .ok () → bs.length = calls.length) ∧
    p.runWith ctx s x =
      match ending with
      | .ok () => (.ok (yielded bs s').1, (yielded bs s').2, x')
      | .error e => (.error e, s', x')

/-- What is read before the calls makes no difference. -/
theorem Iterates.after {α : Type} {ctx : CallbackContext σ}
    {accept : Store → Option Value → Except HostError β} {calls : List (Callback × Array Value)}
    {s : Store} {x : σ} {yielded : List β → Store → Option Value × Store} {p : HostProgram α}
    {f : α → HostProgram (Option Value)} {a : α} (h : (f a).Iterates ctx accept calls s x yielded)
    (hp : p.runWith ctx s x = (.ok a, s, x)) : (p >>= f).Iterates ctx accept calls s x yielded := by
  unfold Iterates
  rw [runWith_bind_of_ok hp]
  exact h

/-- A program that makes a loop of calls, and then ends. -/
theorem iterates_of_bind {δ : Type} {ctx : CallbackContext σ}
    {accept : Store → Option Value → Except HostError β} {calls : List (Callback × Array Value)}
    {s : Store} {x : σ} {yielded : List β → Store → Option Value × Store} {p : HostProgram δ}
    {f : δ → HostProgram (Option Value)} {outcome : List β → δ}
    (hp : ∃ bs ending s' x', Rounds ctx accept calls s x bs ending s' x' ∧
      p.runWith ctx s x = (ending.map fun _ => outcome bs, s', x'))
    (hf : ∀ bs s' x', bs.length = calls.length → (f (outcome bs)).runWith ctx s' x' =
      (.ok (yielded bs s').1, (yielded bs s').2, x')) :
    (p >>= f).Iterates ctx accept calls s x yielded := by
  obtain ⟨bs, ending, s', x', hrounds, hrun⟩ := hp
  refine ⟨bs, ending, s', x', hrounds, hrounds.length_eq, ?_⟩
  cases ending with
  | error e => rw [runWith_bind_of_error hrun]
  | ok u => rw [runWith_bind_of_ok hrun, hf bs s' x' (hrounds.length_eq rfl)]

end HostProgram

namespace CoreModule

open HostProgram

variable {σ : Type} {ctx : CallbackContext σ} {s : Store} {x : σ} {inv : Invocation}

/-! ## What is accepted of an answer -/

/-- The value that a callback has to return. -/
def returned (_ : Store) : Option Value → Except HostError Value
  | some v => .ok v
  | none => .error (.failed "delegate returned nothing")

/-- Whether what a callback returns is a condition that holds. -/
def verdict (s : Store) (r : Option Value) : Except HostError Bool :=
  (returned s r).bind fun v => (s.isTrue v).mapError .eval

def ignored (_ : Store) (_ : Option Value) : Except HostError Unit := .ok ()

/-- The elements whose verdict is that they stay. -/
def kept (vs : List Value) (verdicts : List Bool) : List Value :=
  ((vs.zip verdicts).filter (·.2)).map (·.1)

/-! ## One turn -/

theorem callBack_answers (c : Callback) (args : Array Value) :
    (callBack c args).Answers ctx (fun _ r => .ok r) c args where
  fails h := by rw [runWith_callBack, h]; rfl
  accepts h := by rw [runWith_callBack, h]; rfl

theorem callOne_answers (c : Callback) (v : Value) :
    (callOne c v).Answers ctx returned c #[v] where
  fails h := runWith_bind_of_error ((callBack_answers c #[v]).fails h) _
  accepts {_ _ _ _ r} h := by
    rw [callOne, runWith_bind_of_ok ((callBack_answers c #[v]).accepts h)]
    cases r <;> rfl

/-- One turn of the choice: whether the element stays. -/
def askOne (c : Callback) (v : Value) : HostProgram Bool := do
  let r ← callOne c v
  let s ← getStore
  match s.isTrue r with
  | .ok b => pure b
  | .error e => .fail (.eval e)

theorem askOne_answers (c : Callback) (v : Value) : (askOne c v).Answers ctx verdict c #[v] where
  fails h := runWith_bind_of_error ((callOne_answers c v).fails h) _
  accepts {s s₁ x x₁ r} h := by
    have hone := (callOne_answers c v).accepts h
    rw [askOne]
    cases r with
    | none => exact runWith_bind_of_error hone _
    | some r =>
      rw [runWith_bind_of_ok (a := r) hone, runWith_bind_of_ok (runWith_getStore ..)]
      simp only [verdict, returned, Except.bind]
      cases s₁.isTrue r <;> rfl

/-- One turn of a signal: what the handler returns is dropped. -/
def tellOne (args : Array Value) (c : Callback) : HostProgram Unit := do
  let _ ← callBack c args
  pure ()

theorem tellOne_answers (args : Array Value) (c : Callback) :
    (tellOne args c).Answers ctx ignored c args where
  fails h := runWith_bind_of_error ((callBack_answers c args).fails h) _
  accepts h := runWith_bind_of_ok ((callBack_answers c args).accepts h) _

/-! ## The loops -/

theorem rounds_mapCalls (c : Callback) (vs : List Value) (out : Array Value) (s : Store) (x : σ) :
    ∃ bs ending s' x',
      Rounds ctx returned (vs.map fun v => (c, #[v])) s x bs ending s' x' ∧
      (mapCalls c vs out).runWith ctx s x =
        (ending.map fun _ => (vs.zip bs).foldl (fun out turned => out.push turned.2) out, s', x') :=
  rounds_of_loop (fun v => (c, #[v])) (callOne c) (mapCalls c) (fun out _ b => out.push b)
    (callOne_answers c) (fun _ => rfl) (fun _ _ _ _ _ => rfl) vs out s x

theorem rounds_filterCalls (c : Callback) (vs : List Value) (out : Array Value) (s : Store)
    (x : σ) :
    ∃ bs ending s' x',
      Rounds ctx verdict (vs.map fun v => (c, #[v])) s x bs ending s' x' ∧
      (filterCalls c vs out).runWith ctx s x =
        (ending.map fun _ => (vs.zip bs).foldl
          (fun out turned => if turned.2 then out.push turned.1 else out) out, s', x') := by
  refine rounds_of_loop (fun v => (c, #[v])) (askOne c) (filterCalls c)
    (fun out v b => if b then out.push v else out) (askOne_answers c) (fun _ => rfl)
    (fun v vs out s x => ?_) vs out s x
  rw [filterCalls, askOne]
  simp only [runWith_bind, runWith_getStore]
  rcases (callOne c v).runWith ctx s x with ⟨e | r, s₁, x₁⟩
  · rfl
  · dsimp only
    rcases s₁.isTrue r with e | _ | _ <;> rfl

theorem rounds_callEach (args : Array Value) (cs : List Callback) (s : Store) (x : σ) :
    ∃ bs ending s' x',
      Rounds ctx ignored (cs.map fun c => (c, args)) s x bs ending s' x' ∧
      (callEach args cs).runWith ctx s x = (ending.map fun _ => (), s', x') := by
  refine rounds_of_loop (fun c => (c, args)) (tellOne args) (fun cs _ => callEach args cs)
    (fun _ _ _ => ()) (tellOne_answers args) (fun _ => rfl) (fun c cs _ s x => ?_) cs () s x
  rw [callEach, tellOne]
  simp only [runWith_bind]
  rcases (callBack c args).runWith ctx s x with ⟨e | r, s₁, x₁⟩ <;> rfl

theorem foldl_push_results (vs : List Value) (bs : List Value) (out : Array Value)
    (h : bs.length = vs.length) :
    (vs.zip bs).foldl (fun out turned => out.push turned.2) out = out ++ bs.toArray := by
  induction vs generalizing bs out with
  | nil => simp [List.length_eq_zero_iff.1 h]
  | cons v vs ih =>
    cases bs with
    | nil => cases h
    | cons b bs =>
      rw [List.zip_cons_cons, List.foldl_cons, ih bs _ (by simpa using h)]
      simp

theorem foldl_push_kept (vs : List Value) (bs : List Bool) (out : Array Value) :
    (vs.zip bs).foldl (fun out turned => if turned.2 then out.push turned.1 else out) out =
      out ++ (kept vs bs).toArray := by
  induction vs generalizing bs out with
  | nil => simp [kept]
  | cons v vs ih =>
    cases bs with
    | nil => simp [kept]
    | cons b bs =>
      rw [List.zip_cons_cons, List.foldl_cons, ih]
      cases b <;> simp [kept]

/-! ## The members -/

variable {r : Registry} {flags : AccessFlags}

theorem runWith_theseItems {l : ListId} (h : inv.target = some (.list l)) :
    (theseItems inv).runWith ctx s x = (.ok (s.items l), s, x) := by
  have hthis : inv.thisList.runWith ctx s x = (.ok l, s, x) :=
    Invocation.runWith_thisAs_of_some "List" (by rw [h]; rfl)
  exact runWith_bind_of_ok hthis _

theorem select_iterates (hr : r.descriptor? (.core "List") = some list) (hf : flags.Seeks false)
    (ctx : CallbackContext σ) (s : Store) (x : σ) (l : ListId) (c : Callback) :
    (r.invoke ⟨.core "List", "Select", flags, some (.list l), #[.callback c]⟩).Iterates ctx
      returned ((s.items l).toList.map fun v => (c, #[v])) s x fun results s' =>
        (some (.list s'.nextList), s'.addList results.toArray) := by
  rw [Registry.invoke_of_sought hr hf rfl rfl]
  refine .after (.after (iterates_of_bind (rounds_mapCalls c (s.items l).toList #[] s x) ?_)
    (runWith_theseItems rfl)) (Invocation.runWith_callback rfl)
  intro results s' x' hlength
  rw [foldl_push_results _ _ _ (by simpa using hlength)]
  simp [Except.map]

theorem where_iterates (hr : r.descriptor? (.core "List") = some list) (hf : flags.Seeks false)
    (ctx : CallbackContext σ) (s : Store) (x : σ) (l : ListId) (c : Callback) :
    (r.invoke ⟨.core "List", "Where", flags, some (.list l), #[.callback c]⟩).Iterates ctx
      verdict ((s.items l).toList.map fun v => (c, #[v])) s x fun verdicts s' =>
        (some (.list s'.nextList), s'.addList (kept (s.items l).toList verdicts).toArray) := by
  rw [Registry.invoke_of_sought hr hf rfl rfl]
  refine .after (.after (iterates_of_bind (rounds_filterCalls c (s.items l).toList #[] s x) ?_)
    (runWith_theseItems rfl)) (Invocation.runWith_callback rfl)
  intro verdicts s' x' _
  rw [foldl_push_kept]
  simp [Except.map]

theorem raise_iterates (hr : r.descriptor? (.core "Signal") = some signal) (hf : flags.Seeks false)
    (ctx : CallbackContext σ) (s : Store) (x : σ) {o : HostObject} {handlers : Array Callback}
    (ho : s.payload o = some (.handlers handlers)) (v : Value) :
    (r.invoke ⟨.core "Signal", "Raise", flags, some (.object o), #[v]⟩).Iterates ctx ignored
      (handlers.toList.map fun c => (c, #[.object o, v])) s x fun _ s' => (none, s') := by
  rw [Registry.invoke_of_sought hr hf rfl rfl]
  refine .after (.after (.after (iterates_of_bind (rounds_callEach #[.object o, v]
    handlers.toList s x) ?_) (Invocation.runWith_arg rfl)) (Invocation.runWith_this rfl))
    (Invocation.runWith_thisObject "Signal" rfl (by rw [ho]; rfl))
  intro _ s' x' _
  rfl

end CoreModule

/-! ## Host calls -/

namespace Machine

/-- A host call runs its program under the name of the call, on the spot or at the observer's. -/
theorem marshal_begins (m : Machine) (call : HostCall) (keep : Bool) :
    let program := m.interp.setting.registry.invoke call
    (m.marshal call keep).tasks =
        .member ⟨call.signature m.interp.store, keep, false⟩ program :: m.tasks ∨
      (m.marshal call keep).take.2.tasks =
        .member ⟨call.signature m.interp.store, keep, true⟩ program :: m.tasks := by
  intro program
  unfold marshal
  by_cases h : m.observed = true
  · rw [if_pos h]
    exact .inr rfl
  · rw [if_neg h]
    exact .inl rfl

end Machine

open CoreModule in
/-- A member that calls back for each element of a list calls for the elements that the list has at
the beginning, in their order, and so does a signal with its handlers; whatever the callbacks do
meanwhile. Then there is a new list, of the results or of the elements that stay. The first callback
that fails is the last that is made, and the member fails with its error; so the host call raises an
error of that root cause, under the name of the call. -/
theorem host_iteration_on_snapshot {σ : Type} {r : Registry}
    (hl : r.descriptor? (.core "List") = some list)
    (hs : r.descriptor? (.core "Signal") = some signal) {flags : AccessFlags}
    (hf : flags.Seeks false) (ctx : HostProgram.CallbackContext σ) (s : Store) (x : σ) :
    (∀ l c, (r.invoke ⟨.core "List", "Select", flags, some (.list l), #[.callback c]⟩).Iterates ctx
      returned ((s.items l).toList.map fun v => (c, #[v])) s x fun results s' =>
        (some (.list s'.nextList), s'.addList results.toArray)) ∧
    (∀ l c, (r.invoke ⟨.core "List", "Where", flags, some (.list l), #[.callback c]⟩).Iterates ctx
      verdict ((s.items l).toList.map fun v => (c, #[v])) s x fun verdicts s' =>
        (some (.list s'.nextList), s'.addList (kept (s.items l).toList verdicts).toArray)) ∧
    (∀ o handlers v, s.payload o = some (.handlers handlers) →
      (r.invoke ⟨.core "Signal", "Raise", flags, some (.object o), #[v]⟩).Iterates ctx ignored
        (handlers.toList.map fun c => (c, #[.object o, v])) s x fun _ s' => (none, s')) ∧
    ∀ (m : Machine) (call : HostCall) (keep : Bool),
      let program := m.interp.setting.registry.invoke call
      let signature := call.signature m.interp.store
      ((m.marshal call keep).tasks = .member ⟨signature, keep, false⟩ program :: m.tasks ∨
        (m.marshal call keep).take.2.tasks = .member ⟨signature, keep, true⟩ program :: m.tasks) ∧
      ∀ (m' : Machine) (remote : Bool) (e : EvalError),
        (m'.member ⟨signature, keep, remote⟩ (.fail (.eval e))).status =
          .raising (.host signature (.eval e)) ∧
        (EvalError.host signature (.eval e)).rootCause = e.rootCause := by
  refine ⟨select_iterates hl hf ctx s x, where_iterates hl hf ctx s x,
    fun o handlers v ho => raise_iterates hs hf ctx s x ho v, fun m call keep => ⟨?_, ?_⟩⟩
  · exact m.marshal_begins call keep
  · intro m' remote e
    exact ⟨rfl, by rw [EvalError.rootCause]⟩

/-- Whatever the callback is called for, it adds to the list and to the handlers of the signal. -/
def meddling : HostProgram.CallbackContext Unit where
  call c args s x :=
    (.ok args[0]?, (s.push ⟨0⟩ (.integer 9)).setPayload ⟨0, .core "Signal"⟩ (.handlers #[c, c]), x)
  invoke _ _ s x := (.error .detached, s, x)

/-- Two elements and one handler, and no more calls than that. -/
theorem host_iteration_on_snapshot_of_meddling :
    let r := Registry.ofModules [coreModule]
    let flags := AccessFlags.forAccess (.method true) .ofInstance 1
    let c : Callback := ⟨0, ⟨0⟩, ⟨[.core "Object"], some (.core "Object")⟩, true⟩
    let o : HostObject := ⟨0, .core "Signal"⟩
    let s : Store := { lists := #[#[.integer 1, .integer 2]], objects := #[.handlers #[c]] }
    r.descriptor? (.core "List") = some CoreModule.list ∧
      r.descriptor? (.core "Signal") = some CoreModule.signal ∧ flags.Seeks false ∧
      s.payload o = some (.handlers #[c]) ∧
      (r.invoke ⟨.core "List", "Select", flags, some (.list ⟨0⟩), #[.callback c]⟩).Iterates meddling
        CoreModule.returned [(c, #[.integer 1]), (c, #[.integer 2])] s () (fun results s' =>
          (some (.list s'.nextList), s'.addList results.toArray)) ∧
      (r.invoke ⟨.core "Signal", "Raise", flags, some (.object o), #[.text "x"]⟩).Iterates meddling
        CoreModule.ignored [(c, #[.object o, .text "x"])] s () fun _ s' => (none, s') := by
  intro r flags c o s
  have hl : r.descriptor? (.core "List") = some CoreModule.list := rfl
  have hs : r.descriptor? (.core "Signal") = some CoreModule.signal := rfl
  have hf : flags.Seeks false := AccessFlags.seeks_forAccess_method ..
  have ho : s.payload o = some (.handlers #[c]) := rfl
  obtain ⟨hselect, -, hraise, -⟩ := host_iteration_on_snapshot hl hs hf meddling s ()
  exact ⟨hl, hs, hf, ho, hselect ⟨0⟩ c, hraise o #[c] (.text "x") ho⟩

end WordStack
