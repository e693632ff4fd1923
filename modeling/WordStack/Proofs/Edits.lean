import Mathlib.Logic.Relation
import WordStack.Interp.Words

/-!
# What words change

`Edit` lists the elementary changes that a word makes to the interpreter: another operand stack, a
new list, a new callback, a set word, a put name. `ByEdits act Q` says that `act` changes the
interpreter by such edits alone, also where it fails, and that what it returns satisfies `Q`. There
is one lemma for each word; `resolve_cases` is the summary of them all. What an edit keeps, every
word keeps: `Edits.keeps`.
-/

namespace WordStack

/-- An elementary change of the interpreter by a word. -/
inductive Edit : Interp → Interp → Prop where
  | stack (i : Interp) (stack : OperandStack) : Edit i { i with stack }
  | list (i : Interp) (values : Array Value) : Edit i { i with store := i.store.addList values }
  | callback (i : Interp) (body : ListId) (signature : Signature) :
      Edit i { i with store := (i.store.newCallback body signature i.setting.attached).2 }
  | setWord (i : Interp) (name : String) (v : Value) :
      Edit i { i with setWords := i.setWords.set name v }
  | putWord (i : Interp) (name : String) (v : Value) :
      Edit i { i with putWords := i.putWords.set name v }

/-- Any number of edits. -/
abbrev Edits : Interp → Interp → Prop := Relation.ReflTransGen Edit

/-- A reflexive and transitive relation that holds across an edit holds across edits. -/
theorem Edits.keeps {R : Interp → Interp → Prop} (hrefl : ∀ i, R i i)
    (htrans : ∀ {i j k}, R i j → R j k → R i k) (hedit : ∀ {i j}, Edit i j → R i j)
    {i i' : Interp} (h : Edits i i') : R i i' := by
  induction h with
  | refl => exact hrefl i
  | tail _ he ih => exact htrans ih (hedit he)

/-- A task that a word leaves to be done once a list has been walked. -/
def Task.FollowsUp : Task → Prop
  | .branch _ | .loop _ _ | .again _ _ | .countAbove _ | .execute _ | .makeDelegate => True
  | _ => False

/-- After a walk only such tasks are left. -/
def Next.Orderly : Next → Prop
  | .walk _ after => ∀ t ∈ after, t.FollowsUp
  | _ => True

/-- `act` changes the interpreter by edits alone, and its result satisfies `Q`. -/
def ByEdits {α : Type} (act : Eval α) (Q : α → Prop) : Prop :=
  ∀ i, Edits i (act i).2 ∧ ∀ a, (act i).1 = .ok a → Q a

/-- `act` changes the interpreter by edits alone. -/
abbrev JustEdits {α : Type} (act : Eval α) : Prop := ByEdits act fun _ => True

theorem Interp.bind_apply {α β : Type} (x : Eval α) (f : α → Eval β) (i : Interp) :
    (x >>= f) i = match x i with
      | (.ok a, i') => f a i'
      | (.error e, i') => (.error e, i') := by
  rcases h : x i with ⟨_ | _, _⟩
  · simp only [bind, ExceptT.bind, ExceptT.mk, StateT.bind, h, ExceptT.bindCont]
    rfl
  · simp only [bind, ExceptT.bind, ExceptT.mk, StateT.bind, h, ExceptT.bindCont]

/-- An action that succeeds is gone on with in the state that it leaves. -/
theorem Interp.bind_of_ok {α β : Type} {x : Eval α} {a : α} {i i' : Interp}
    (h : x i = (.ok a, i')) (f : α → Eval β) : (x >>= f) i = f a i' := by
  rw [bind_apply, h]

section Rules

variable {α β : Type} {P : α → Prop} {Q : β → Prop}

theorem ByEdits.bind {x : Eval α} {f : α → Eval β} (hx : ByEdits x P)
    (hf : ∀ a, P a → ByEdits (f a) Q) : ByEdits (x >>= f) Q := by
  intro i
  obtain ⟨h1, h2⟩ := hx i
  rw [Interp.bind_apply]
  split
  · next a i' h =>
    rw [h] at h1 h2
    obtain ⟨h3, h4⟩ := hf a (h2 a rfl) i'
    exact ⟨h1.trans h3, h4⟩
  · next e i' h =>
    rw [h] at h1
    exact ⟨h1, fun _ hb => by cases hb⟩

theorem ByEdits.andThen {x : Eval α} {f : α → Eval β} (hx : JustEdits x)
    (hf : ∀ a, ByEdits (f a) Q) : ByEdits (x >>= f) Q :=
  hx.bind fun a _ => hf a

theorem ByEdits.pure {a : α} (h : P a) : ByEdits (pure a) P := fun _ =>
  ⟨.refl, fun _ hb => by cases hb; exact h⟩

theorem ByEdits.throw (e : EvalError) : ByEdits (throw e : Eval α) P := fun _ =>
  ⟨.refl, fun _ hb => by cases hb⟩

theorem JustEdits.pure (a : α) : JustEdits (Pure.pure a : Eval α) := ByEdits.pure trivial

theorem JustEdits.get : JustEdits (get : Eval Interp) := fun _ => ⟨.refl, fun _ _ => trivial⟩

theorem JustEdits.modify {f : Interp → Interp} (h : ∀ i, Edit i (f i)) :
    JustEdits (modify f : Eval Unit) := fun i => ⟨.single (h i), fun _ _ => trivial⟩

theorem JustEdits.map {x : Eval α} (hx : JustEdits x) (f : α → β) : JustEdits (f <$> x) := by
  rw [← bind_pure_comp]
  exact hx.andThen fun a => JustEdits.pure (f a)

end Rules

namespace Interp

/-! ## What words are made of -/

theorem edits_popping {α : Type} (p : Store → Popping α) : JustEdits (popping p) := fun i =>
  ⟨.single (.stack i _), fun _ _ => trivial⟩

theorem edits_push (v : Value) : JustEdits (push v) := JustEdits.modify fun i => .stack i _

theorem edits_pop : JustEdits pop := edits_popping _

theorem edits_mismatch {α : Type} {P : α → Prop} (expected : String) (found : Value) :
    ByEdits (mismatch expected found : Eval α) P :=
  JustEdits.get.andThen fun _ => ByEdits.throw _

theorem edits_newList (values : Array Value) : JustEdits (newList values) :=
  JustEdits.get.andThen fun _ =>
    (JustEdits.modify fun i => .list i values).andThen fun _ => JustEdits.pure _

theorem edits_listOf (v : Value) : JustEdits (listOf v) := by
  unfold listOf
  split
  · exact JustEdits.pure _
  · exact edits_newList _

theorem edits_bindSet (name : String) (v : Value) : JustEdits (bindSet name v) :=
  JustEdits.modify fun i => .setWord i name v

theorem edits_bindPut (name : String) (v : Value) : JustEdits (bindPut name v) :=
  JustEdits.modify fun i => .putWord i name v

theorem edits_bindMember (name : String) : JustEdits (bindMember name) := by
  refine JustEdits.get.andThen fun i => ?_
  split
  · exact (edits_newList _).andThen fun _ => edits_bindSet _ _
  · exact JustEdits.pure _

theorem edits_forM {α : Type} {f : α → Eval Unit} (hf : ∀ a, JustEdits (f a)) (xs : List α) :
    JustEdits (xs.forM f) := by
  induction xs with
  | nil => exact JustEdits.pure _
  | cons x xs ih => exact (hf x).andThen fun _ => ih

theorem edits_hostResult {α : Type} (signature : String) (r : Except HostError α) :
    JustEdits (hostResult signature r) := by
  cases r with
  | ok a => exact JustEdits.pure a
  | error e => exact ByEdits.throw _

theorem edits_convert (v : Value) (type : HostType) : JustEdits (convert v type) := by
  refine JustEdits.get.andThen fun i => ?_
  dsimp only
  split
  · exact JustEdits.pure _
  · exact ByEdits.throw _
  · exact edits_hostResult _ _

theorem edits_importTypes (module : String) (spaces : List String) :
    JustEdits (importTypes module spaces) := by
  refine JustEdits.get.andThen fun i => (edits_hostResult _ _).andThen fun exports => ?_
  refine (edits_forM (fun _ => edits_bindSet _ _) exports).andThen fun _ => ?_
  exact edits_forM (fun _ => edits_forM edits_bindMember _) exports

/-! ## Binding words -/

theorem edits_keyOf (v : Value) : JustEdits (keyOf v) := by
  unfold keyOf
  split
  · exact JustEdits.pure _
  · exact edits_mismatch _ _

theorem edits_keysOf (vs : List Value) : JustEdits (keysOf vs) := by
  induction vs with
  | nil => exact JustEdits.pure _
  | cons v vs ih =>
    exact (edits_keyOf v).andThen fun _ => ih.andThen fun _ => JustEdits.pure _

theorem edits_popKeys : JustEdits popKeys := by
  refine edits_pop.andThen fun v => ?_
  split
  · exact JustEdits.get.andThen fun _ => edits_keysOf _
  · exact edits_keysOf _

theorem edits_bindAll {bind : String → Value → Eval Unit} (hb : ∀ name v, JustEdits (bind name v))
    (keys : List String) : JustEdits (bindAll bind keys) := by
  induction keys with
  | nil => exact JustEdits.pure _
  | cons key keys ih => exact edits_pop.andThen fun v => (hb key v).andThen fun _ => ih

theorem edits_setKeys : JustEdits setKeys :=
  edits_popKeys.andThen fun _ => edits_bindAll edits_bindSet _

theorem edits_putKeys : JustEdits putKeys :=
  edits_popKeys.andThen fun _ => edits_bindAll edits_bindPut _

theorem edits_pushAll (keys : List String) : JustEdits (pushAll keys) := by
  induction keys with
  | nil => exact JustEdits.pure _
  | cons key keys ih =>
    refine JustEdits.get.andThen fun i => ?_
    split
    · exact (edits_push _).andThen fun _ => ih
    · exact ByEdits.throw _

theorem edits_getKeys : JustEdits getKeys := edits_popKeys.andThen edits_pushAll

/-! ## Words that reach the host -/

theorem edits_reflect (member : String) (args : Array Value) : JustEdits (reflect member args) := by
  refine JustEdits.get.andThen fun i => ?_
  split
  · exact (edits_newList _).map _
  · exact JustEdits.pure _
  · exact (edits_newList _).map _
  · exact JustEdits.pure _
  · split
    · exact JustEdits.pure _
    · exact ByEdits.throw _
  · exact ByEdits.throw _

theorem edits_evaluateAndSplit {after : List Task} (h : ∀ t ∈ after, t.FollowsUp) :
    ByEdits (evaluateAndSplit after) Next.Orderly := by
  refine edits_pop.andThen fun v => JustEdits.get.andThen fun i => ?_
  refine (edits_listOf v).andThen fun l => ByEdits.pure ?_
  intro t ht
  rcases List.mem_cons.1 ht with rfl | ht
  · trivial
  · exact h t ht

theorem edits_popSubject : JustEdits popSubject := by
  refine edits_pop.andThen fun v => ?_
  split
  · exact edits_pop.andThen fun _ => JustEdits.pure _
  · exact JustEdits.pure _

theorem edits_memberCall (type : HostType) (target : Option Value) (member : String)
    (args : Array Value) : JustEdits (memberCall type target member args) := by
  refine JustEdits.get.andThen fun i => ?_
  dsimp only
  split
  · exact JustEdits.pure _
  · exact JustEdits.pure _
  · exact JustEdits.pure _
  · exact JustEdits.pure _
  · exact JustEdits.pure _
  · exact ByEdits.throw _

theorem edits_executeWith (member : String) (count : Nat) :
    ByEdits (executeWith member count) Next.Orderly := by
  refine (edits_popping _).andThen fun args => edits_popSubject.andThen fun (subject, force) => ?_
  refine JustEdits.get.andThen fun i => ?_
  split
  · refine (edits_reflect _ _).andThen fun v => (edits_push v).andThen fun _ => ?_
    exact ByEdits.pure trivial
  · exact (edits_memberCall _ _ _ _).andThen fun _ => ByEdits.pure trivial

theorem edits_execute : ByEdits execute Next.Orderly := by
  refine (edits_popping _).andThen fun member => (edits_popping _).andThen fun top => ?_
  split
  · exact edits_evaluateAndSplit (by simp [Task.FollowsUp])
  · exact edits_executeWith _ _

theorem edits_executeCounted (member : String) : ByEdits (executeCounted member) Next.Orderly :=
  (edits_popping _).andThen fun _ => edits_executeWith _ _

theorem edits_popFlags : JustEdits popFlags := by
  refine (edits_popping _).andThen fun n => ?_
  split
  · exact JustEdits.pure _
  · exact edits_mismatch _ _

theorem edits_invoke : ByEdits invoke Next.Orderly := by
  refine edits_popFlags.andThen fun kind => edits_popFlags.andThen fun binding => ?_
  refine (edits_popping _).andThen fun member => (edits_popping _).andThen fun typeName => ?_
  refine (edits_popping _).andThen fun module => (edits_popping _).andThen fun count => ?_
  refine (edits_popping _).andThen fun args => ?_
  dsimp only
  split
  · refine (edits_pop.map _).andThen fun target => JustEdits.get.andThen fun i => ?_
    exact (edits_hostResult _ _).andThen fun type => ByEdits.pure trivial
  · refine (JustEdits.pure _).andThen fun target => JustEdits.get.andThen fun i => ?_
    exact (edits_hostResult _ _).andThen fun type => ByEdits.pure trivial

theorem edits_reference : JustEdits reference := by
  have load (spaces : List String) :
      JustEdits (do importTypes (← popping OperandStack.popName) spaces) :=
    (edits_popping _).andThen fun module => edits_importTypes module spaces
  refine edits_pop.andThen fun v => ?_
  dsimp only
  split
  · exact JustEdits.get.andThen fun _ => (JustEdits.pure _).andThen load
  · split
    · exact (JustEdits.pure _).andThen load
    · exact (edits_mismatch _ _).andThen load

theorem edits_pushCallback (signature : Signature) : JustEdits (pushCallback signature) := by
  refine (edits_popping _).andThen fun body => ByEdits.andThen ?_ fun c => edits_push _
  exact fun i => ⟨.single (.callback i body signature), fun _ _ => trivial⟩

theorem edits_typesOf (vs : List Value) : JustEdits (typesOf vs) := by
  fun_induction typesOf vs with
  | case1 => exact JustEdits.pure _
  | case2 type vs ih => exact ih.andThen fun _ => JustEdits.pure _
  | case3 v vs _ => exact edits_mismatch _ _

theorem edits_createDelegate : ByEdits createDelegate Next.Orderly := by
  refine (edits_popping _).andThen fun top => ?_
  split
  · refine (edits_popping _).andThen fun type => JustEdits.get.andThen fun i => ?_
    split
    · exact (edits_pushCallback _).andThen fun _ => ByEdits.pure trivial
    · exact edits_mismatch _ _
  · exact edits_evaluateAndSplit (by simp [Task.FollowsUp])

theorem edits_delegateCounted : ByEdits delegateCounted Next.Orderly := by
  refine (edits_popping _).andThen fun count => (edits_popping _).andThen fun values => ?_
  refine (edits_typesOf _).andThen fun params => (edits_popping _).andThen fun returns => ?_
  exact (edits_pushCallback _).andThen fun _ => ByEdits.pure trivial

/-! ## Control, lists and values -/

theorem edits_walkValue (v : Value) {after : List Task} (h : ∀ t ∈ after, t.FollowsUp) :
    ByEdits (walkValue v after) Next.Orderly :=
  (edits_listOf v).andThen fun _ => ByEdits.pure h

/-- The word that begins an evaluation. -/
theorem edits_start (v : Value) : ByEdits (walkValue v []) Next.Orderly :=
  edits_walkValue v (by simp)

theorem edits_branch : ByEdits branch Next.Orderly :=
  edits_pop.andThen fun _ => edits_pop.andThen fun _ => edits_walkValue _ (by simp [Task.FollowsUp])

theorem edits_loop : ByEdits loop Next.Orderly :=
  edits_pop.andThen fun _ => edits_pop.andThen fun _ => edits_walkValue _ (by simp [Task.FollowsUp])

theorem edits_popTruth : JustEdits popTruth := by
  refine edits_pop.andThen fun v => JustEdits.get.andThen fun i => ?_
  split
  · exact JustEdits.pure _
  · exact ByEdits.throw _

theorem edits_branchOn (body : Value) : ByEdits (branchOn body) Next.Orderly := by
  refine edits_popTruth.andThen fun b => ?_
  split
  · exact edits_walkValue _ (by simp)
  · exact ByEdits.pure trivial

theorem edits_loopOn (condition body : Value) : ByEdits (loopOn condition body) Next.Orderly := by
  refine edits_popTruth.andThen fun b => ?_
  split
  · exact edits_walkValue _ (by simp [Task.FollowsUp])
  · exact ByEdits.pure trivial

theorem edits_countAbove (height : Nat) : ByEdits (countAbove height) Next.Orderly :=
  JustEdits.get.andThen fun _ => (edits_push _).andThen fun _ => ByEdits.pure trivial

theorem edits_split : JustEdits split := by
  refine (edits_popping _).andThen fun l => JustEdits.get.andThen fun i => ?_
  exact (JustEdits.modify fun i => .stack i _).andThen fun _ => edits_push _

theorem edits_join : JustEdits join :=
  (edits_popping _).andThen fun _ => (edits_popping _).andThen fun _ =>
    (edits_newList _).andThen fun _ => edits_push _

theorem edits_cast : JustEdits cast :=
  (edits_popping _).andThen fun _ => edits_pop.andThen fun _ =>
    (edits_convert _ _).andThen fun _ => edits_push _

theorem edits_toName : JustEdits toName :=
  edits_pop.andThen fun _ => JustEdits.get.andThen fun _ => edits_push _

theorem edits_operatorOf (identifier : Value) (arity : Nat) :
    JustEdits (operatorOf identifier arity) := by
  unfold operatorOf
  split
  · exact edits_mismatch _ _
  · split
    · split
      · exact JustEdits.pure _
      · exact ByEdits.throw _
    · exact ByEdits.throw _

theorem edits_makeOperation : JustEdits makeOperation := by
  refine edits_pop.andThen fun v => ?_
  dsimp only
  split
  · exact (JustEdits.pure _).andThen fun _ => edits_push _
  · refine edits_pop.andThen fun identifier => ?_
    split
    · exact (edits_operatorOf _ _).andThen fun _ => edits_push _
    · exact (edits_mismatch _ _).andThen fun _ => edits_push _
  · exact (edits_mismatch _ _).andThen fun _ => edits_push _

theorem edits_makeOperator (arity : Nat) : JustEdits (makeOperator arity) :=
  edits_pop.andThen fun _ => (edits_operatorOf _ _).andThen fun _ => edits_push _

theorem edits_output (channel : OutputChannel) : ByEdits (output channel) Next.Orderly :=
  edits_pop.andThen fun _ => JustEdits.get.andThen fun _ => ByEdits.pure trivial

theorem edits_trace : ByEdits trace Next.Orderly :=
  (edits_popping _).andThen fun _ => JustEdits.get.andThen fun _ => ByEdits.pure trivial

/-! ## Actions and elements -/

theorem edits_thenDone {act : Eval Unit} (h : JustEdits act) :
    ByEdits (thenDone act) Next.Orderly :=
  h.andThen fun _ => ByEdits.pure trivial

theorem edits_primitive (p : Primitive) : ByEdits (primitive p) Next.Orderly := by
  cases p with
  | branch => exact edits_branch
  | loop => exact edits_loop
  | evaluate => exact edits_pop.andThen fun _ => edits_walkValue _ (by simp)
  | evaluateAndSplit => exact edits_evaluateAndSplit (by simp)
  | split => exact edits_thenDone edits_split
  | join => exact edits_thenDone edits_join
  | set => exact edits_thenDone edits_setKeys
  | put => exact edits_thenDone edits_putKeys
  | get => exact edits_thenDone edits_getKeys
  | cast => exact edits_thenDone edits_cast
  | toName => exact edits_thenDone edits_toName
  | makeOperation => exact edits_thenDone edits_makeOperation
  | makeBinaryAction => exact edits_thenDone (edits_makeOperator 2)
  | makeUnaryAction => exact edits_thenDone (edits_makeOperator 1)
  | execute => exact edits_execute
  | invoke => exact edits_invoke
  | reference => exact edits_thenDone edits_reference
  | createEventHandler => exact edits_thenDone (edits_pushCallback _)
  | createDelegate => exact edits_createDelegate
  | pause => exact ByEdits.pure trivial
  | output => exact edits_output _
  | display => exact edits_output _
  | trace => exact edits_trace

theorem edits_operate (op : Operator) : JustEdits (operate op) := by
  unfold operate
  dsimp only
  split
  · refine edits_pop.andThen fun v => (JustEdits.pure _).andThen fun result => ?_
    cases result with
    | ok v => exact edits_push v
    | error e => exact ByEdits.throw e
  · refine edits_pop.andThen fun rhs => edits_pop.andThen fun lhs =>
      JustEdits.get.andThen fun i => (JustEdits.pure _).andThen fun result => ?_
    cases result with
    | ok v => exact edits_push v
    | error e => exact ByEdits.throw e

theorem edits_perform (action : Action) : ByEdits (perform action) Next.Orderly := by
  cases action with
  | primitive p => exact edits_primitive p
  | operator op => exact edits_thenDone (edits_operate op)
  | convert type =>
    refine edits_thenDone (edits_pop.andThen fun _ => ?_)
    exact (edits_convert _ _).andThen fun _ => edits_push _

/-- A symbol that is set to a list, and to which no name is put, is the call of a procedure. -/
theorem resolve_procedure {name : String} {body : ListId} {i : Interp}
    (hput : i.putWords.get? name = none) (hset : i.setWords.get? name = some (.list body)) :
    resolve (.symbol name) i =
      (.ok (.walk body [.leaveScope]), { i with putWords := i.putWords.enter }) := by
  simp only [resolve, bind_apply, show (get : Eval Interp) i = (.ok i, i) from rfl, hput, hset]
  rfl

/-- An element is a call of a procedure, which enters a scope, or it is processed by edits. -/
theorem resolve_cases (element : Value) (i : Interp) :
    (∃ name body, element = .symbol name ∧ i.putWords.get? name = none ∧
      i.setWords.get? name = some (.list body) ∧
      resolve element i =
        (.ok (.walk body [.leaveScope]), { i with putWords := i.putWords.enter })) ∨
    Edits i (resolve element i).2 ∧ ∀ next, (resolve element i).1 = .ok next → next.Orderly := by
  by_cases h : ∃ name body, element = .symbol name ∧ i.putWords.get? name = none ∧
      i.setWords.get? name = some (.list body)
  · obtain ⟨name, body, rfl, hput, hset⟩ := h
    exact .inl ⟨name, body, rfl, hput, hset, resolve_procedure hput hset⟩
  · refine .inr ?_
    unfold resolve
    split
    · next name =>
      rw [bind_apply, show (get : Eval Interp) i = (.ok i, i) from rfl]
      refine (?_ : ByEdits _ Next.Orderly) i
      split
      · exact edits_thenDone (edits_push _)
      · next hput =>
        split
        · exact edits_perform _
        · next body hset => exact absurd ⟨name, body, rfl, hput, hset⟩ h
        · exact edits_walkValue _ (by simp)
        · exact edits_thenDone (edits_push _)
    · exact edits_thenDone (edits_push _) i

theorem edits_callbackResult (returns : Option HostType) :
    JustEdits (callbackResult returns) := by
  unfold callbackResult
  split
  · exact JustEdits.pure _
  · split
    · exact JustEdits.pure _
    · exact edits_pop.andThen fun _ => (edits_convert _ _).map _

end Interp

end WordStack
