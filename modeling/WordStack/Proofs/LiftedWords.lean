import WordStack.Proofs.Edits

/-!
# Words on a lifted stack

A word takes what it needs from the top of the operand stack and looks no deeper, and it does not
ask how many frames there may be. So it does the same on a stack that has other values below, and
with another limit of frames: `Lift.Lifts`, with one lemma for each word. What it notes of the
height of the stack is then higher by as many values (`Next.raise`). Only a word that lacks an
operand may find one among the values below.

One word does look deeper: a program that asks for the member `Stack` of its own run gets all of the
values (`AsksForStack`, `ReadsStack`).
-/

namespace WordStack

/-- What is put below an operand stack, and the limit of frames that is set instead. -/
structure Lift where
  below : Array Value
  limit : Option Nat

def OperandStack.lift (u : Lift) (st : OperandStack) : OperandStack := ⟨u.below ++ st.values⟩

def Interp.lift (u : Lift) (i : Interp) : Interp :=
  { i with stack := i.stack.lift u, calls := { i.calls with limit := u.limit } }

/-- The task on a stack that is higher by `n` values. -/
def Task.raise (n : Nat) : Task → Task
  | .countAbove height => .countAbove (height + n)
  | t => t

def Next.raise (n : Nat) : Next → Next
  | .walk items after => .walk items (after.map (Task.raise n))
  | next => next

theorem OperandStack.lift_of_empty {u : Lift} (h : u.below = #[]) (st : OperandStack) :
    st.lift u = st := by
  simp [OperandStack.lift, h]

namespace Lift

/-- What `x` does with success, `x'` does on the lifted stack, with the result that `f` makes of the
one of `x`. What `x` does with an error `x'` does too, but if `x` lacks an operand and there are
values below. -/
structure Carries {α β : Type} (u : Lift) (f : α → β) (x : Eval α) (x' : Eval β) (i : Interp) :
    Prop where
  ok : ∀ a j, x i = (.ok a, j) → x' (i.lift u) = (.ok (f a), j.lift u)
  error : ∀ e j, (u.below = #[] ∨ e ≠ .stackUnderflow) → x i = (.error e, j) →
    x' (i.lift u) = (.error e, j.lift u)

/-- Whatever the state, `x` does on a lifted stack what it does without. -/
abbrev Lifts {α β : Type} (u : Lift) (f : α → β) (x : Eval α) (x' : Eval β) : Prop :=
  ∀ i, u.Carries f x x' i

/-- Taking values off a stack leaves alone what is put below, unless there are too few. -/
structure Pops {α : Type} (u : Lift) (p : Popping α) : Prop where
  ok : ∀ st a st', p st = (.ok a, st') → p (st.lift u) = (.ok a, st'.lift u)
  error : ∀ st e st', e ≠ .stackUnderflow → p st = (.error e, st') →
    p (st.lift u) = (.error e, st'.lift u)

/-- A word with its result, as one of a higher stack. -/
abbrev Keeps (u : Lift) (word : Eval Next) : Prop := u.Lifts (Next.raise u.below.size) word word

end Lift

section Rules

variable {u : Lift} {α β γ δ : Type} {i : Interp}

theorem Lift.Carries.bind {f : α → β} {g : γ → δ} {x : Eval α} {x' : Eval β} {k : α → Eval γ}
    {k' : β → Eval δ} (hx : u.Carries f x x' i)
    (hk : ∀ a j, x i = (.ok a, j) → u.Carries g (k a) (k' (f a)) j) :
    u.Carries g (x >>= k) (x' >>= k') i := by
  refine ⟨fun b j hb => ?_, fun e j hu he => ?_⟩
  · rw [Interp.bind_apply] at hb ⊢
    split at hb
    · next a i' hi =>
      rw [hx.ok a i' hi]
      exact (hk a i' hi).ok b j hb
    · cases hb
  · rw [Interp.bind_apply] at he ⊢
    split at he
    · next a i' hi =>
      rw [hx.ok a i' hi]
      exact (hk a i' hi).error e j hu he
    · next e' i' hi =>
      cases he
      rw [hx.error _ _ hu hi]

section

variable {f : α → β}

theorem Lift.Lifts.andThen {x : Eval α} {k : α → Eval γ} {k' : α → Eval δ} {g : γ → δ}
    (hx : u.Lifts id x x) (hk : ∀ a, u.Lifts g (k a) (k' a)) : u.Lifts g (x >>= k) (x >>= k') :=
  fun i => (hx i).bind fun a j _ => hk a j

theorem Lift.lifts_pure {a : α} {b : β} (h : f a = b) :
    u.Lifts f (pure a : Eval α) (pure b : Eval β) := fun i => by
  refine ⟨fun a' j ha => ?_, fun e j _ he => by cases he⟩
  cases ha
  rw [h]
  rfl

theorem Lift.lifts_throw (e : EvalError) :
    u.Lifts f (throw e : Eval α) (throw e : Eval β) := fun i => by
  refine ⟨fun a j ha => (by cases ha), fun e' j _ he => ?_⟩
  cases he
  rfl

theorem Lift.Carries.get {k : Interp → Eval α} {k' : Interp → Eval β}
    (hk : u.Carries f (k i) (k' (i.lift u)) i) : u.Carries f (get >>= k) (get >>= k') i := by
  have hget (j : Interp) : (MonadState.get : Eval Interp) j = (.ok j, j) := rfl
  refine ⟨fun a j ha => ?_, fun e j hu he => ?_⟩
  · rw [Interp.bind_apply, hget] at ha ⊢
    exact hk.ok a j ha
  · rw [Interp.bind_apply, hget] at he ⊢
    exact hk.error e j hu he

/-- What looks at no more of the state than is the same on the lifted stack. -/
theorem Lift.lifts_get {k : Interp → Eval α} {k' : Interp → Eval β}
    (hsame : ∀ i, k' (i.lift u) = k' i) (hk : ∀ i, u.Lifts f (k i) (k' i)) :
    u.Lifts f (get >>= k) (get >>= k') := fun i => by
  refine Lift.Carries.get ?_
  rw [hsame]
  exact hk i i

theorem Lift.lifts_modify {g : Interp → Interp} (h : ∀ i, g (i.lift u) = (g i).lift u) :
    u.Lifts id (modify g : Eval Unit) (modify g) := fun i => by
  refine ⟨fun a j ha => ?_, fun e j _ he => by cases he⟩
  cases ha
  exact congrArg (Prod.mk _) (h i)

theorem Lift.Lifts.map {x : Eval α} (hx : u.Lifts id x x) (g : α → γ) :
    u.Lifts id (g <$> x) (g <$> x) := by
  rw [← bind_pure_comp]
  exact hx.andThen fun a => lifts_pure rfl

end

/-! ## Taking values off the stack -/

theorem Lift.Pops.bind {p : Popping α} {k : α → Popping β} (hp : u.Pops p)
    (hk : ∀ a, u.Pops (k a)) : u.Pops (p >>= k) := by
  have run (st : OperandStack) : (p >>= k) st = match p st with
      | (.ok a, st') => k a st'
      | (.error e, st') => (.error e, st') := by
    rcases hp : p st with ⟨_ | _, _⟩
    · simp only [Bind.bind, ExceptT.bind, ExceptT.mk, StateT.bind, hp, ExceptT.bindCont]
      rfl
    · simp only [Bind.bind, ExceptT.bind, ExceptT.mk, StateT.bind, hp, ExceptT.bindCont]
  refine ⟨fun st b st' h => ?_, fun st e st' he h => ?_⟩
  · rw [run] at h ⊢
    split at h
    · next a st₁ h₁ =>
      rw [hp.ok st a st₁ h₁]
      exact (hk a).ok st₁ b st' h
    · cases h
  · rw [run] at h ⊢
    split at h
    · next a st₁ h₁ =>
      rw [hp.ok st a st₁ h₁]
      exact (hk a).error st₁ e st' he h
    · next e' st₁ h₁ =>
      cases h
      rw [hp.error st _ _ he h₁]

theorem Lift.pops_pure (a : α) : u.Pops (pure a) := by
  refine ⟨fun st b st' h => ?_, fun st e st' _ h => (by cases h)⟩
  cases h
  rfl

theorem Lift.pops_throw (e : EvalError) : u.Pops (throw e : Popping α) := by
  refine ⟨fun st b st' h => (by cases h), fun st e' st' _ h => ?_⟩
  cases h
  rfl

theorem Lift.back?_below {st : OperandStack} {v : Value} (h : st.values.back? = some v) :
    (u.below ++ st.values).back? = some v := by
  rw [Array.back?_append, h]
  rfl

theorem Lift.pops_pop : u.Pops OperandStack.pop := by
  refine ⟨fun st v st' h => ?_, fun st e st' he h => ?_⟩
  · unfold OperandStack.pop at h
    split at h
    · next w hw =>
      cases h
      have hne : st.values ≠ #[] := by
        intro he
        simp [he] at hw
      simp only [OperandStack.pop, OperandStack.lift, Lift.back?_below hw]
      rw [Array.pop_append_of_ne_empty hne]
    · cases h
  · unfold OperandStack.pop at h
    split at h
    · cases h
    · cases h
      exact absurd rfl he

theorem Lift.pops_peek : u.Pops OperandStack.peek := by
  refine ⟨fun st v st' h => ?_, fun st e st' he h => ?_⟩
  · unfold OperandStack.peek at h
    split at h
    · next w hw =>
      cases h
      simp only [OperandStack.peek, OperandStack.lift, Lift.back?_below hw]
    · cases h
  · unfold OperandStack.peek at h
    split at h
    · cases h
    · cases h
      exact absurd rfl he

theorem Lift.pops_popMany (n : Nat) : u.Pops (OperandStack.popMany n) := by
  refine ⟨fun st v st' h => ?_, fun st e st' he h => ?_⟩
  · simp only [OperandStack.popMany] at h
    split at h
    · next hn =>
      cases h
      have hsize : (u.below ++ st.values).size = u.below.size + st.values.size := Array.size_append
      have hle : n ≤ (u.below ++ st.values).size := by omega
      have htop : (u.below ++ st.values).extract (u.below.size + st.values.size - n)
          (u.below.size + st.values.size) =
          st.values.extract (st.values.size - n) st.values.size := by
        rw [Array.extract_append, Array.extract_empty_of_size_le_start (by omega),
          Array.empty_append]
        congr 1 <;> omega
      have hrest : (u.below ++ st.values).take (u.below.size + st.values.size - n) =
          u.below ++ st.values.take (st.values.size - n) := by
        rw [Array.take_eq_extract, Array.take_eq_extract, Array.extract_append,
          Array.extract_eq_self_of_le (by omega)]
        congr 2 <;> omega
      simp only [OperandStack.popMany, OperandStack.lift, hsize, htop, hrest]
      rw [if_pos (by omega)]
    · cases h
  · simp only [OperandStack.popMany] at h
    split at h
    · cases h
    · cases h
      exact absurd rfl he

theorem Lift.pops_popAs (s : Store) (expected : String) (pick : Value → Option α) :
    u.Pops (OperandStack.popAs s expected pick) := by
  refine pops_pop.bind fun v => ?_
  split
  · exact pops_pure _
  · exact pops_throw _

end Rules

namespace Interp

variable {u : Lift}

/-! ## What words are made of -/

theorem lifts_popping {α : Type} {p : Store → Popping α} (hp : ∀ s, u.Pops (p s)) :
    u.Lifts id (popping p) (popping p) := fun i => by
  refine ⟨fun a j ha => ?_, fun e j hu he => ?_⟩
  · rcases h : p i.store i.stack with ⟨r, st⟩
    simp only [popping, h] at ha
    cases ha
    simp only [popping, lift, (hp i.store).ok i.stack a st h]
    rfl
  · rcases h : p i.store i.stack with ⟨r, st⟩
    simp only [popping, h] at he
    cases he
    rcases hu with hu | hne
    · simp only [popping, lift, OperandStack.lift_of_empty hu, h]
    · simp only [popping, lift, (hp i.store).error i.stack e st hne h]

theorem lifts_pop : u.Lifts id pop pop := lifts_popping fun _ => Lift.pops_pop

theorem lifts_peek : u.Lifts id (popping fun _ => OperandStack.peek)
    (popping fun _ => OperandStack.peek) := lifts_popping fun _ => Lift.pops_peek

theorem lifts_popMany (n : Nat) : u.Lifts id (popping fun _ => OperandStack.popMany n)
    (popping fun _ => OperandStack.popMany n) := lifts_popping fun _ => Lift.pops_popMany n

theorem lifts_popAs {α : Type} (expected : String) (pick : Value → Option α) :
    u.Lifts id (popping fun s => OperandStack.popAs s expected pick)
      (popping fun s => OperandStack.popAs s expected pick) :=
  lifts_popping fun s => Lift.pops_popAs s expected pick

theorem lifts_push (v : Value) : u.Lifts id (push v) (push v) := by
  refine Lift.lifts_modify fun i => ?_
  simp [lift, OperandStack.lift, OperandStack.push]

theorem lifts_mismatch {α β : Type} {f : α → β} (expected : String) (found : Value) :
    u.Lifts f (mismatch expected found) (mismatch expected found) :=
  Lift.lifts_get (fun _ => rfl) fun _ => Lift.lifts_throw _

theorem lifts_newList (values : Array Value) : u.Lifts id (newList values) (newList values) := by
  refine Lift.lifts_get (fun _ => rfl) fun i => ?_
  refine Lift.Lifts.andThen (Lift.lifts_modify fun _ => ?_) fun _ => Lift.lifts_pure rfl
  rfl

theorem lifts_listOf (v : Value) : u.Lifts id (listOf v) (listOf v) := by
  unfold listOf
  split
  · exact Lift.lifts_pure rfl
  · exact lifts_newList _

theorem lifts_bindSet (name : String) (v : Value) : u.Lifts id (bindSet name v) (bindSet name v) :=
  Lift.lifts_modify fun _ => rfl

theorem lifts_bindPut (name : String) (v : Value) : u.Lifts id (bindPut name v) (bindPut name v) :=
  Lift.lifts_modify fun _ => rfl

theorem lifts_bindMember (name : String) : u.Lifts id (bindMember name) (bindMember name) := by
  refine Lift.lifts_get (fun _ => rfl) fun i => ?_
  split
  · exact (lifts_newList _).andThen fun _ => lifts_bindSet _ _
  · exact Lift.lifts_pure rfl

theorem lifts_forM {α : Type} {f : α → Eval Unit} (hf : ∀ a, u.Lifts id (f a) (f a))
    (xs : List α) : u.Lifts id (xs.forM f) (xs.forM f) := by
  induction xs with
  | nil => exact Lift.lifts_pure rfl
  | cons x xs ih => exact (hf x).andThen fun _ => ih

theorem lifts_hostResult {α : Type} (signature : String) (r : Except HostError α) :
    u.Lifts id (hostResult signature r) (hostResult signature r) := by
  cases r with
  | ok a => exact Lift.lifts_pure rfl
  | error e => exact Lift.lifts_throw _

theorem lifts_convert (v : Value) (type : HostType) :
    u.Lifts id (convert v type) (convert v type) := by
  refine Lift.lifts_get (fun _ => rfl) fun i => ?_
  dsimp only
  split
  · exact Lift.lifts_pure rfl
  · exact Lift.lifts_throw _
  · exact lifts_hostResult _ _

theorem lifts_importTypes (module : String) (spaces : List String) :
    u.Lifts id (importTypes module spaces) (importTypes module spaces) := by
  refine Lift.lifts_get (fun _ => rfl) fun i => (lifts_hostResult _ _).andThen fun exports => ?_
  refine (lifts_forM (fun _ => lifts_bindSet _ _) exports).andThen fun _ => ?_
  exact lifts_forM (fun _ => lifts_forM lifts_bindMember _) exports

/-! ## Binding words -/

theorem lifts_keyOf (v : Value) : u.Lifts id (keyOf v) (keyOf v) := by
  unfold keyOf
  split
  · exact Lift.lifts_pure rfl
  · exact lifts_mismatch _ _

theorem lifts_keysOf (vs : List Value) : u.Lifts id (keysOf vs) (keysOf vs) := by
  induction vs with
  | nil => exact Lift.lifts_pure rfl
  | cons v vs ih =>
    exact (lifts_keyOf v).andThen fun _ => ih.andThen fun _ => Lift.lifts_pure rfl

theorem lifts_popKeys : u.Lifts id popKeys popKeys := by
  refine lifts_pop.andThen fun v => ?_
  split
  · exact Lift.lifts_get (fun _ => rfl) fun _ => lifts_keysOf _
  · exact lifts_keysOf _

theorem lifts_bindAll {bind : String → Value → Eval Unit}
    (hb : ∀ name v, u.Lifts id (bind name v) (bind name v)) (keys : List String) :
    u.Lifts id (bindAll bind keys) (bindAll bind keys) := by
  induction keys with
  | nil => exact Lift.lifts_pure rfl
  | cons key keys ih => exact lifts_pop.andThen fun v => (hb key v).andThen fun _ => ih

theorem lifts_setKeys : u.Lifts id setKeys setKeys :=
  lifts_popKeys.andThen fun _ => lifts_bindAll lifts_bindSet _

theorem lifts_putKeys : u.Lifts id putKeys putKeys :=
  lifts_popKeys.andThen fun _ => lifts_bindAll lifts_bindPut _

theorem lifts_pushAll (keys : List String) : u.Lifts id (pushAll keys) (pushAll keys) := by
  induction keys with
  | nil => exact Lift.lifts_pure rfl
  | cons key keys ih =>
    refine Lift.lifts_get (fun _ => rfl) fun i => ?_
    split
    · exact (lifts_push _).andThen fun _ => ih
    · exact Lift.lifts_throw _

theorem lifts_getKeys : u.Lifts id getKeys getKeys := lifts_popKeys.andThen lifts_pushAll

/-! ## Words that reach the host -/

/-- The height that is noted counts what is below. -/
theorem keeps_evaluateAndSplit {after : List Task}
    (h : after.map (Task.raise u.below.size) = after) : u.Keeps (evaluateAndSplit after) := by
  refine lifts_pop.andThen fun v i => Lift.Carries.get ?_
  refine (lifts_listOf v i).bind fun l j _ => Lift.lifts_pure ?_ j
  have hheight : (i.lift u).stack.size = i.stack.size + u.below.size := by
    simp [lift, OperandStack.lift, OperandStack.size, Nat.add_comm]
  simp only [Next.raise, List.map_cons, Task.raise, h, hheight, id]

theorem lifts_popSubject : u.Lifts id popSubject popSubject := by
  refine lifts_pop.andThen fun v => ?_
  split
  · exact lifts_pop.andThen fun _ => Lift.lifts_pure rfl
  · exact Lift.lifts_pure rfl

theorem lifts_memberCall (type : HostType) (target : Option Value) (member : String)
    (args : Array Value) :
    u.Lifts id (memberCall type target member args) (memberCall type target member args) := by
  refine Lift.lifts_get (fun _ => rfl) fun i => ?_
  dsimp only
  split
  · exact Lift.lifts_pure rfl
  · exact Lift.lifts_pure rfl
  · exact Lift.lifts_pure rfl
  · exact Lift.lifts_pure rfl
  · exact Lift.lifts_pure rfl
  · exact Lift.lifts_throw _

/-- All that a program learns of its own run but the operand stack is the same on a lifted one. -/
theorem lifts_reflect {member : String} {args : Array Value}
    (h : u.below = #[] ∨ ¬ (member = "Stack" ∧ args = #[])) :
    u.Lifts id (reflect member args) (reflect member args) := by
  refine Lift.lifts_get (fun i => ?_) fun i => ?_
  · rcases h with hu | hn
    · have hstack : (i.lift u).stack = i.stack := OperandStack.lift_of_empty hu _
      rw [hstack]
      rfl
    · split
      · next hargs => exact absurd ⟨rfl, Array.toList_eq_nil_iff.1 hargs⟩ hn
      · rfl
      · rfl
      · rfl
      · rfl
      · rfl
  · split
    · exact (lifts_newList _).map _
    · exact Lift.lifts_pure rfl
    · exact (lifts_newList _).map _
    · exact Lift.lifts_pure rfl
    · split
      · exact Lift.lifts_pure rfl
      · exact Lift.lifts_throw _
    · exact Lift.lifts_throw _

/-- The member is called with no arguments, and it is the operand stack of the program's run. -/
def AsksForStack (member : String) (count : Nat) (i : Interp) : Prop :=
  member = "Stack" ∧ ∃ j subject k, popping (fun _ => OperandStack.popMany count) i = (.ok #[], j) ∧
    popSubject j = (.ok subject, k) ∧ isReflection k.store subject.1 = true

theorem keeps_executeWith {member : String} {count : Nat} {i : Interp}
    (h : u.below = #[] ∨ ¬ AsksForStack member count i) :
    u.Carries (Next.raise u.below.size) (executeWith member count) (executeWith member count)
      i := by
  refine (lifts_popMany count i).bind fun args j hargs => ?_
  refine (lifts_popSubject j).bind fun subject k hsubject => ?_
  obtain ⟨subject, force⟩ := subject
  refine Lift.Carries.get ?_
  have hsame : isReflection (k.lift u).store subject = isReflection k.store subject := rfl
  rw [hsame]
  split
  · next hr =>
    have hread : u.below = #[] ∨ ¬ (member = "Stack" ∧ args = #[]) := by
      refine h.imp id fun hn ⟨hm, ha⟩ => hn ⟨hm, j, (subject, force), k, ?_, hsubject, hr⟩
      rw [← ha]
      exact hargs
    exact ((lifts_reflect hread).andThen fun v => (lifts_push v).andThen fun _ =>
      Lift.lifts_pure rfl) k
  · exact ((lifts_memberCall _ _ _ _).andThen fun call => Lift.lifts_pure rfl) k

/-- The name of the member that the word `execute` calls at once, with no arguments. -/
def ExecutesNow (member : String) (i j : Interp) : Prop :=
  ∃ j₁ top, popping OperandStack.popName i = (.ok member, j₁) ∧
    popping (fun _ => OperandStack.peek) j₁ = (.ok top, j) ∧ top.list? = none

theorem keeps_execute {i : Interp}
    (h : u.below = #[] ∨ ∀ member j, ExecutesNow member i j → ¬ AsksForStack member 0 j) :
    u.Carries (Next.raise u.below.size) execute execute i := by
  refine (lifts_popAs _ _ i).bind fun member j₁ hmember => ?_
  refine (lifts_peek j₁).bind fun top j htop => ?_
  dsimp only [id]
  split
  · exact keeps_evaluateAndSplit rfl j
  · next hlist =>
    refine keeps_executeWith (h.imp id fun hn => hn member j ⟨j₁, top, hmember, htop, ?_⟩)
    cases top with
    | list l => exact absurd rfl (hlist l)
    | _ => rfl

theorem keeps_executeCounted {member : String} {i : Interp}
    (h : u.below = #[] ∨ ∀ count j, popping OperandStack.popCount i = (.ok count, j) →
      ¬ AsksForStack member count j) :
    u.Carries (Next.raise u.below.size) (executeCounted member) (executeCounted member) i :=
  (lifts_popAs _ _ i).bind fun count j hcount =>
    keeps_executeWith (h.imp id fun hn => hn count j hcount)

theorem lifts_popFlags : u.Lifts id popFlags popFlags := by
  refine (lifts_popAs _ _).andThen fun n => ?_
  split
  · exact Lift.lifts_pure rfl
  · exact lifts_mismatch _ _

theorem keeps_invoke : u.Keeps invoke := by
  refine lifts_popFlags.andThen fun kind => lifts_popFlags.andThen fun binding => ?_
  refine (lifts_popAs _ _).andThen fun member => (lifts_popAs _ _).andThen fun typeName => ?_
  refine (lifts_popAs _ _).andThen fun module => (lifts_popAs _ _).andThen fun count => ?_
  refine (lifts_popMany _).andThen fun args => ?_
  dsimp only
  split
  · refine (lifts_pop.map _).andThen fun target => Lift.lifts_get (fun _ => rfl) fun i => ?_
    exact (lifts_hostResult _ _).andThen fun type => Lift.lifts_pure rfl
  · refine Lift.Lifts.andThen (Lift.lifts_pure rfl) fun target => ?_
    refine Lift.lifts_get (fun _ => rfl) fun i => ?_
    exact (lifts_hostResult _ _).andThen fun type => Lift.lifts_pure rfl

theorem lifts_reference : u.Lifts id reference reference := by
  have load (spaces : List String) :
      u.Lifts id (do importTypes (← popping OperandStack.popName) spaces)
        (do importTypes (← popping OperandStack.popName) spaces) :=
    (lifts_popAs _ _).andThen fun module => lifts_importTypes module spaces
  refine lifts_pop.andThen fun v => ?_
  dsimp only
  split
  · exact Lift.lifts_get (fun _ => rfl) fun _ => (Lift.lifts_pure rfl).andThen load
  · split
    · exact (Lift.lifts_pure rfl).andThen load
    · exact (lifts_mismatch _ _).andThen load

theorem lifts_pushCallback (signature : Signature) :
    u.Lifts id (pushCallback signature) (pushCallback signature) := by
  refine (lifts_popAs _ _).andThen fun body =>
    Lift.Lifts.andThen (fun i => ?_) fun c => lifts_push _
  refine ⟨fun a j ha => ?_, fun e j _ he => by cases he⟩
  cases ha
  rfl

theorem lifts_typesOf (vs : List Value) : u.Lifts id (typesOf vs) (typesOf vs) := by
  fun_induction typesOf vs with
  | case1 => exact Lift.lifts_pure rfl
  | case2 type vs ih => exact ih.andThen fun _ => Lift.lifts_pure rfl
  | case3 v vs _ => exact lifts_mismatch _ _

theorem keeps_createDelegate : u.Keeps createDelegate := by
  refine lifts_peek.andThen fun top => ?_
  split
  · refine (lifts_popAs _ _).andThen fun type => Lift.lifts_get (fun _ => rfl) fun i => ?_
    split
    · exact (lifts_pushCallback _).andThen fun _ => Lift.lifts_pure rfl
    · exact lifts_mismatch _ _
  · exact keeps_evaluateAndSplit rfl

theorem keeps_delegateCounted : u.Keeps delegateCounted := by
  refine (lifts_popAs _ _).andThen fun count => (lifts_popMany _).andThen fun values => ?_
  refine (lifts_typesOf _).andThen fun params => (lifts_popAs _ _).andThen fun returns => ?_
  exact (lifts_pushCallback _).andThen fun _ => Lift.lifts_pure rfl

/-! ## Control, lists and values -/

theorem keeps_walkValue (v : Value) {after : List Task}
    (h : after.map (Task.raise u.below.size) = after) : u.Keeps (walkValue v after) :=
  (lifts_listOf v).andThen fun l => Lift.lifts_pure (by rw [Next.raise, h])

theorem keeps_branch : u.Keeps branch :=
  lifts_pop.andThen fun _ => lifts_pop.andThen fun _ => keeps_walkValue _ rfl

theorem keeps_loop : u.Keeps loop :=
  lifts_pop.andThen fun _ => lifts_pop.andThen fun _ => keeps_walkValue _ rfl

theorem lifts_popTruth : u.Lifts id popTruth popTruth := by
  refine lifts_pop.andThen fun v => Lift.lifts_get (fun _ => rfl) fun i => ?_
  split
  · exact Lift.lifts_pure rfl
  · exact Lift.lifts_throw _

theorem keeps_branchOn (body : Value) : u.Keeps (branchOn body) := by
  refine lifts_popTruth.andThen fun b => ?_
  split
  · exact keeps_walkValue _ rfl
  · exact Lift.lifts_pure rfl

theorem keeps_loopOn (condition body : Value) : u.Keeps (loopOn condition body) := by
  refine lifts_popTruth.andThen fun b => ?_
  split
  · exact keeps_walkValue _ rfl
  · exact Lift.lifts_pure rfl

/-- As many values are above the height that was noted, where both are higher. -/
theorem keeps_countAbove (height : Nat) : u.Lifts (Next.raise u.below.size) (countAbove height)
    (countAbove (height + u.below.size)) := by
  refine fun i => Lift.Carries.get ?_
  have hcount : (((i.lift u).stack.size : Int) - (height + u.below.size : Nat)) =
      (i.stack.size : Int) - height := by
    have hsize : (i.lift u).stack.size = u.below.size + i.stack.size := by
      simp [lift, OperandStack.lift, OperandStack.size]
    omega
  rw [hcount]
  exact (lifts_push _).andThen (fun _ => Lift.lifts_pure rfl) i

theorem lifts_split : u.Lifts id split split := by
  refine (lifts_popAs _ _).andThen fun l => Lift.lifts_get (fun _ => rfl) fun i => ?_
  refine Lift.Lifts.andThen (Lift.lifts_modify fun j => ?_) fun _ => lifts_push _
  simp [lift, OperandStack.lift]

theorem lifts_join : u.Lifts id join join :=
  (lifts_popAs _ _).andThen fun _ => (lifts_popMany _).andThen fun _ =>
    (lifts_newList _).andThen fun _ => lifts_push _

theorem lifts_cast : u.Lifts id cast cast :=
  (lifts_popAs _ _).andThen fun _ => lifts_pop.andThen fun _ =>
    (lifts_convert _ _).andThen fun _ => lifts_push _

theorem lifts_toName : u.Lifts id toName toName :=
  lifts_pop.andThen fun _ => Lift.lifts_get (fun _ => rfl) fun _ => lifts_push _

theorem lifts_operatorOf (identifier : Value) (arity : Nat) :
    u.Lifts id (operatorOf identifier arity) (operatorOf identifier arity) := by
  unfold operatorOf
  split
  · exact lifts_mismatch _ _
  · split
    · split
      · exact Lift.lifts_pure rfl
      · exact Lift.lifts_throw _
    · exact Lift.lifts_throw _

theorem lifts_makeOperation : u.Lifts id makeOperation makeOperation := by
  refine lifts_pop.andThen fun v => ?_
  dsimp only
  split
  · exact (Lift.lifts_pure rfl).andThen fun _ => lifts_push _
  · refine lifts_pop.andThen fun identifier => ?_
    split
    · exact (lifts_operatorOf _ _).andThen fun _ => lifts_push _
    · exact (lifts_mismatch _ _).andThen fun _ => lifts_push _
  · exact (lifts_mismatch _ _).andThen fun _ => lifts_push _

theorem lifts_makeOperator (arity : Nat) : u.Lifts id (makeOperator arity) (makeOperator arity) :=
  lifts_pop.andThen fun _ => (lifts_operatorOf _ _).andThen fun _ => lifts_push _

theorem keeps_output (channel : OutputChannel) : u.Keeps (output channel) :=
  lifts_pop.andThen fun _ => Lift.lifts_get (fun _ => rfl) fun _ => Lift.lifts_pure rfl

theorem keeps_trace : u.Keeps trace :=
  lifts_peek.andThen fun _ => Lift.lifts_get (fun _ => rfl) fun _ => Lift.lifts_pure rfl

/-! ## Actions and elements -/

theorem keeps_thenDone {act : Eval Unit} (h : u.Lifts id act act) : u.Keeps (thenDone act) :=
  h.andThen fun _ => Lift.lifts_pure rfl

theorem lifts_operate (op : Operator) : u.Lifts id (operate op) (operate op) := by
  unfold operate
  dsimp only
  split
  · refine lifts_pop.andThen fun v => (Lift.lifts_pure rfl).andThen fun result => ?_
    cases result with
    | ok v => exact lifts_push v
    | error e => exact Lift.lifts_throw e
  · refine lifts_pop.andThen fun rhs => lifts_pop.andThen fun lhs =>
      Lift.lifts_get (fun _ => rfl) fun i => (Lift.lifts_pure rfl).andThen fun result => ?_
    cases result with
    | ok v => exact lifts_push v
    | error e => exact Lift.lifts_throw e

theorem keeps_primitive {p : Primitive} {i : Interp}
    (h : u.below = #[] ∨ ∀ member j, p = .execute → ExecutesNow member i j →
      ¬ AsksForStack member 0 j) :
    u.Carries (Next.raise u.below.size) (primitive p) (primitive p) i := by
  cases p with
  | branch => exact keeps_branch i
  | loop => exact keeps_loop i
  | evaluate => exact lifts_pop.andThen (fun _ => keeps_walkValue _ rfl) i
  | evaluateAndSplit => exact keeps_evaluateAndSplit rfl i
  | split => exact keeps_thenDone lifts_split i
  | join => exact keeps_thenDone lifts_join i
  | set => exact keeps_thenDone lifts_setKeys i
  | put => exact keeps_thenDone lifts_putKeys i
  | get => exact keeps_thenDone lifts_getKeys i
  | cast => exact keeps_thenDone lifts_cast i
  | toName => exact keeps_thenDone lifts_toName i
  | makeOperation => exact keeps_thenDone lifts_makeOperation i
  | makeBinaryAction => exact keeps_thenDone (lifts_makeOperator 2) i
  | makeUnaryAction => exact keeps_thenDone (lifts_makeOperator 1) i
  | execute => exact keeps_execute (h.imp id fun hn member j => hn member j rfl)
  | invoke => exact keeps_invoke i
  | reference => exact keeps_thenDone lifts_reference i
  | createEventHandler => exact keeps_thenDone (lifts_pushCallback _) i
  | createDelegate => exact keeps_createDelegate i
  | pause => exact Lift.lifts_pure rfl i
  | output => exact keeps_output _ i
  | display => exact keeps_output _ i
  | trace => exact keeps_trace i

/-- Processing the element reads the operand stack: it is a word for `execute`, which calls the
member `Stack` of the program's run. -/
def ReadsStack (element : Value) (i : Interp) : Prop :=
  ∃ name member j, element = .symbol name ∧ i.putWords.get? name = none ∧
    i.setWords.get? name = some (.action (.primitive .execute)) ∧
    ExecutesNow member i j ∧ AsksForStack member 0 j

theorem keeps_resolve {element : Value} {i : Interp} (h : u.below = #[] ∨ ¬ ReadsStack element i) :
    u.Carries (Next.raise u.below.size) (resolve element) (resolve element) i := by
  unfold resolve
  split
  · next name =>
    refine Lift.Carries.get ?_
    have hput : (i.lift u).putWords = i.putWords := rfl
    have hset : (i.lift u).setWords = i.setWords := rfl
    rw [hput, hset]
    split
    · exact keeps_thenDone (lifts_push _) i
    · next hput =>
      split
      · next action hset =>
        cases action with
        | primitive p =>
          refine keeps_primitive (h.imp id fun hn member j hp hnow hasks => ?_)
          exact hn ⟨name, member, j, rfl, hput, hp ▸ hset, hnow, hasks⟩
        | operator op => exact keeps_thenDone (lifts_operate op) i
        | convert type =>
          refine keeps_thenDone (lifts_pop.andThen fun _ => ?_) i
          exact (lifts_convert _ _).andThen fun _ => lifts_push _
      · refine Lift.Carries.bind (f := id) (Lift.lifts_modify (fun _ => ?_) i)
          fun _ j _ => Lift.lifts_pure ?_ j
        · rfl
        · rfl
      · exact keeps_walkValue _ rfl i
      · exact keeps_thenDone (lifts_push _) i
  · exact keeps_thenDone (lifts_push _) i

theorem lifts_callbackResult (returns : Option HostType) :
    u.Lifts id (callbackResult returns) (callbackResult returns) := by
  unfold callbackResult
  split
  · exact Lift.lifts_pure rfl
  · split
    · exact Lift.lifts_pure rfl
    · exact lifts_pop.andThen fun _ => (lifts_convert _ _).map _

end Interp

end WordStack
