import WordStack.Machine

/-!
# Members that run callbacks in their host calls alone

`CallsOnly` says of a host program that it runs callbacks only as a part of the host call that it
answers. `HandsOn` says more: where such a callback fails, the program runs no other, and ends with
a failure that has the same root cause. Here it is said of a whole registry what its programs
satisfy, carried through the programs that members are made of, and shown that the members of the
core module hand on the failures of their callbacks. So a session that has no other modules runs no
callback from outside, and no failure of one is lost.
-/

namespace WordStack

def Member.CallsOnly (m : Member) : Prop :=
  (∀ inv, (m.body inv).CallsOnly) ∧ ∀ body ∈ m.setter, ∀ inv, (body inv).CallsOnly

def TypeDescriptor.CallsOnly (d : TypeDescriptor) : Prop := ∀ m ∈ d.members, m.CallsOnly

def HostModule.CallsOnly (mod : HostModule) : Prop := ∀ d ∈ mod.types, d.CallsOnly

/-- Whatever the members do, they run callbacks only as a part of their host calls. -/
def Registry.CallsOnly (r : Registry) : Prop := ∀ mod ∈ r.modules, mod.CallsOnly

/-! ## Failures of callbacks -/

namespace HostProgram

variable {α β : Type}

/-- Whatever it reads, the program ends with a failure of that root cause, and runs no callback. -/
def FailsWith (root : EvalError) : HostProgram α → Prop
  | .fail (.eval e) => e.rootCause = root
  | .read k => ∀ s, (k s).FailsWith root
  | .write _ k => k.FailsWith root
  | _ => False

/-- The program runs callbacks only as a part of its host call, and fails where one of them does. -/
def HandsOn : HostProgram α → Prop
  | .done _ | .fail _ => True
  | .read k => ∀ s, (k s).HandsOn
  | .write _ k => k.HandsOn
  | .call _ _ k => (∀ e, (k (.error e)).FailsWith e.rootCause) ∧ ∀ v, (k (.ok v)).HandsOn
  | .invoke _ _ _ => False

theorem FailsWith.handsOn {root : EvalError} {p : HostProgram α} (h : p.FailsWith root) :
    p.HandsOn := by
  induction p with
  | done a => exact h.elim
  | fail e => trivial
  | read k ih => exact fun s => ih s (h s)
  | write f k ih => exact ih h
  | call c args k ih => exact h.elim
  | invoke c args k ih => exact h.elim

theorem HandsOn.callsOnly {p : HostProgram α} (h : p.HandsOn) : p.CallsOnly := by
  induction p with
  | done a => trivial
  | fail e => trivial
  | read k ih => exact fun s => ih s (h s)
  | write f k ih => exact ih h
  | call c args k ih =>
    intro r
    cases r with
    | error e => exact ih _ (h.1 e).handsOn
    | ok v => exact ih _ (h.2 v)
  | invoke c args k ih => exact h.elim

end HostProgram

/-! ## What all the programs of a registry satisfy -/

section Satisfies

variable (P : HostProgram (Option Value) → Prop)

def Member.Satisfies (m : Member) : Prop :=
  (∀ inv, P (m.body inv)) ∧ ∀ body ∈ m.setter, ∀ inv, P (body inv)

def TypeDescriptor.Satisfies (d : TypeDescriptor) : Prop := ∀ m ∈ d.members, m.Satisfies P

def HostModule.Satisfies (mod : HostModule) : Prop := ∀ d ∈ mod.types, d.Satisfies P

def Registry.Satisfies (r : Registry) : Prop := ∀ mod ∈ r.modules, mod.Satisfies P

end Satisfies

variable {P : HostProgram (Option Value) → Prop}

theorem HostModule.Satisfies.imp {Q : HostProgram (Option Value) → Prop} {mod : HostModule}
    (h : mod.Satisfies P) (hpq : ∀ p, P p → Q p) : mod.Satisfies Q := fun d hd m hm =>
  ⟨fun inv => hpq _ ((h d hd m hm).1 inv),
    fun body hb inv => hpq _ ((h d hd m hm).2 body hb inv)⟩

theorem Registry.satisfies_true (r : Registry) : r.Satisfies fun _ => True :=
  fun _ _ _ _ _ _ => ⟨fun _ => trivial, fun _ _ _ => trivial⟩

abbrev TypeDescriptor.HandsOn (d : TypeDescriptor) : Prop := d.Satisfies HostProgram.HandsOn

abbrev HostModule.HandsOn (mod : HostModule) : Prop := mod.Satisfies HostProgram.HandsOn

/-- Every member hands on the failures of its callbacks. -/
abbrev Registry.HandsOn (r : Registry) : Prop := r.Satisfies HostProgram.HandsOn

/-! ## Calls -/

theorem TypeDescriptor.mem_of_select {d : TypeDescriptor} {name : String} {count : Nat}
    {accepts : Member → Bool} {m : Member} (h : d.select name count accepts = .ok m) :
    m ∈ d.members := by
  unfold select at h
  dsimp only at h
  split at h
  · cases h
  · split at h
    · next hf =>
      cases h
      have hm := List.mem_of_find?_eq_some hf
      exact Array.mem_toList_iff.1 (List.mem_filter.1 hm).1
    · cases h

namespace Registry

theorem mem_of_descriptor {r : Registry} {type : HostType} {d : TypeDescriptor}
    (h : r.descriptor? type = some d) : ∃ mod ∈ r.modules, d ∈ mod.types := by
  unfold descriptor? at h
  split at h
  · next name i _ =>
    obtain ⟨mod, hm, hd⟩ := Option.bind_eq_some_iff.1 h
    exact ⟨mod, List.mem_of_find?_eq_some hm, Array.mem_of_getElem? hd⟩
  · cases h

/-- The member that a call reaches is one of its type, and what runs is the member's body or its
setter. -/
theorem mem_of_bodyOf {d : TypeDescriptor} {call : HostCall} {m : Member} {body : MemberBody}
    (h : bodyOf d call = .ok (m, body)) :
    m ∈ d.members ∧ (body = m.body ∨ m.setter = some body) := by
  have plain {name : String} {count : Nat} {accepts : Member → Bool}
      (hs : (d.select name count accepts).map (fun m => (m, m.body)) = .ok (m, body)) :
      m ∈ d.members ∧ (body = m.body ∨ m.setter = some body) := by
    cases hm : d.select name count accepts with
    | error e =>
      rw [hm] at hs
      cases hs
    | ok m' =>
      rw [hm] at hs
      cases hs
      exact ⟨d.mem_of_select hm, .inl rfl⟩
  unfold bodyOf at h
  dsimp only at h
  split at h
  · exact plain h
  · split at h
    · exact plain h
    · split at h
      · split at h
        · cases h
        · next m' hm =>
          split at h
          · cases h
          · next body' hb =>
            split at h
            · cases h
              exact ⟨d.mem_of_select hm, .inr hb⟩
            · cases h
      · exact plain h

theorem bodyOf_satisfies {d : TypeDescriptor} (hd : d.Satisfies P) {call : HostCall} {m : Member}
    {body : MemberBody} (h : bodyOf d call = .ok (m, body)) (inv : Invocation) :
    P (body inv) := by
  obtain ⟨hm, rfl | hsetter⟩ := mem_of_bodyOf h
  · exact (hd m hm).1 inv
  · exact (hd m hm).2 body hsetter inv

theorem Satisfies.invoke {r : Registry} (h : r.Satisfies P) (hfail : ∀ e, P (.fail e))
    (call : HostCall) : P (r.invoke call) := by
  unfold Registry.invoke
  split
  · exact hfail _
  · next d hd =>
    obtain ⟨mod, hmod, hdm⟩ := mem_of_descriptor hd
    split
    · exact hfail _
    · next m body hb =>
      split
      · exact hfail _
      · exact bodyOf_satisfies (h mod hmod d hdm) hb _

theorem CallsOnly.invoke {r : Registry} (h : r.CallsOnly) (call : HostCall) :
    (r.invoke call).CallsOnly :=
  Satisfies.invoke (P := HostProgram.CallsOnly) h (fun _ => trivial) call

theorem Satisfies.register {r : Registry} (h : r.Satisfies P) {mod : HostModule}
    (hm : mod.Satisfies P) : (r.register mod).Satisfies P := by
  intro other ho
  rcases List.mem_append.1 ho with ho | ho
  · exact h other (List.mem_filter.1 ho).1
  · obtain rfl := List.mem_singleton.1 ho
    exact hm

/-- A registry is as good as the modules it is made of. -/
theorem satisfies_ofModules {modules : List HostModule}
    (h : ∀ mod ∈ modules, mod.Satisfies P) : (ofModules modules).Satisfies P := by
  have from_here (r : Registry) (hr : r.Satisfies P) :
      (modules.foldl Registry.register r).Satisfies P := by
    induction modules generalizing r with
    | nil => exact hr
    | cons mod modules ih =>
      refine ih (fun mod' hm => h mod' (List.mem_cons_of_mem mod hm)) _ ?_
      exact hr.register (h mod List.mem_cons_self)
  exact from_here {} (by simp [Registry.Satisfies])

theorem callsOnly_ofModules {modules : List HostModule} (h : ∀ mod ∈ modules, mod.CallsOnly) :
    (ofModules modules).CallsOnly :=
  satisfies_ofModules (P := HostProgram.CallsOnly) h

end Registry

/-! ## Programs -/

namespace HostProgram

variable {α β : Type}

/-- The program may end with the result, for some stores and some answers to its callbacks. -/
def CanYield : HostProgram α → α → Prop
  | .done b, a => b = a
  | .fail _, _ => False
  | .read k, a => ∃ s, (k s).CanYield a
  | .write _ k, a => k.CanYield a
  | .call _ _ k, a => ∃ r, (k r).CanYield a
  | .invoke _ _ k, a => ∃ r, (k r).CanYield a

/-- A program that fails has no result. -/
theorem FailsWith.not_canYield {root : EvalError} {p : HostProgram α} (h : p.FailsWith root)
    (a : α) : ¬ p.CanYield a := by
  induction p with
  | done b => exact h.elim
  | fail e => exact id
  | read k ih => exact fun ⟨s, hs⟩ => ih s (h s) hs
  | write f k ih => exact ih h
  | call c args k ih => exact h.elim
  | invoke c args k ih => exact h.elim

theorem FailsWith.bind {root : EvalError} {p : HostProgram α} (h : p.FailsWith root)
    (f : α → HostProgram β) : (p >>= f).FailsWith root := by
  change (p.bind f).FailsWith root
  induction p with
  | done a => exact h.elim
  | fail e => cases e <;> exact h
  | read k ih => exact fun s => ih s (h s)
  | write g k ih => exact ih h
  | call c args k ih => exact h.elim
  | invoke c args k ih => exact h.elim

@[simp] theorem pure_handsOn (a : α) : (pure a : HostProgram α).HandsOn := trivial

@[simp] theorem done_handsOn (a : α) : (done a).HandsOn := trivial

@[simp] theorem fail_handsOn (e : HostError) : (fail e : HostProgram α).HandsOn := trivial

@[simp] theorem bind_handsOn {p : HostProgram α} (hp : p.HandsOn) (f : α → HostProgram β) :
    (p >>= f).HandsOn ↔ ∀ a, p.CanYield a → (f a).HandsOn := by
  change (p.bind f).HandsOn ↔ _
  induction p with
  | done b => simp [HostProgram.bind, CanYield]
  | fail e => simp [HostProgram.bind, CanYield]
  | read k ih =>
    simp only [HostProgram.bind, HandsOn, CanYield, ih _ (hp _)]
    exact ⟨fun h a ⟨s, hs⟩ => h s a hs, fun h s a hs => h a ⟨s, hs⟩⟩
  | write g k ih => exact ih hp
  | call c args k ih =>
    simp only [HostProgram.bind, HandsOn, CanYield, ih _ (hp.2 _)]
    refine ⟨fun h a ⟨r, hr⟩ => ?_, fun h => ⟨fun e => (hp.1 e).bind f, fun v a ha => h a ⟨_, ha⟩⟩⟩
    cases r with
    | error e => exact absurd hr ((hp.1 e).not_canYield a)
    | ok v => exact h.2 v a hr
  | invoke c args k ih => exact hp.elim

@[simp] theorem map_handsOn {p : HostProgram α} (hp : p.HandsOn) (f : α → β) :
    (f <$> p).HandsOn := by
  change (p >>= fun a => pure (f a)).HandsOn
  simp [hp]

@[simp] theorem getStore_handsOn : getStore.HandsOn := fun _ => trivial

@[simp] theorem query_handsOn (f : Store → α) : (query f).HandsOn := fun _ => trivial

@[simp] theorem modifyStore_handsOn (f : Store → Store) : (modifyStore f).HandsOn := trivial

@[simp] theorem newList_handsOn (values : Array Value) : (newList values).HandsOn :=
  fun _ => trivial

@[simp] theorem newObject_handsOn (type : HostType) (payload : Payload) :
    (newObject type payload).HandsOn :=
  fun _ => trivial

@[simp] theorem badArgument_handsOn (index : Nat) (expected : String) (found : Value) :
    (badArgument index expected found : HostProgram α).HandsOn :=
  fun _ => trivial

@[simp] theorem callBack_handsOn (c : Callback) (args : Array Value) :
    (callBack c args).HandsOn :=
  ⟨fun _ => rfl, fun _ => trivial⟩

end HostProgram

namespace Invocation

open HostProgram

variable {α : Type} (inv : Invocation) (i : Nat)

@[simp] theorem arg_handsOn : (inv.arg i).HandsOn := by
  unfold arg
  split <;> trivial

@[simp] theorem argAs_handsOn (expected : String) (pick : Value → Option α) :
    (inv.argAs i expected pick).HandsOn := by
  simp only [argAs, bind_handsOn, arg_handsOn]
  intro v _
  split <;> simp

@[simp] theorem integer_handsOn : (inv.integer i).HandsOn := inv.argAs_handsOn ..

@[simp] theorem float_handsOn : (inv.float i).HandsOn := inv.argAs_handsOn ..

@[simp] theorem text_handsOn : (inv.text i).HandsOn := inv.argAs_handsOn ..

@[simp] theorem callback_handsOn : (inv.callback i).HandsOn := inv.argAs_handsOn ..

@[simp] theorem position_handsOn : (inv.position i).HandsOn := by
  simp only [position, bind_handsOn, integer_handsOn]
  intro n _
  split <;> simp

@[simp] theorem this_handsOn : inv.this.HandsOn := by
  unfold this
  split <;> trivial

@[simp] theorem thisAs_handsOn (expected : String) (pick : Value → Option α) :
    (inv.thisAs expected pick).HandsOn := by
  simp only [thisAs, bind_handsOn, this_handsOn]
  intro v _
  split <;> simp

@[simp] theorem thisText_handsOn : inv.thisText.HandsOn := inv.thisAs_handsOn ..

@[simp] theorem thisList_handsOn : inv.thisList.HandsOn := inv.thisAs_handsOn ..

@[simp] theorem thisObject_handsOn (expected : String) (pick : Payload → Option α) :
    (inv.thisObject expected pick).HandsOn := by
  simp only [thisObject, bind_handsOn, this_handsOn]
  intro v _
  split
  · simp only [bind_handsOn, query_handsOn]
    intro payload _
    split <;> simp
  · simp

end Invocation

/-! ## Types -/

namespace TypeDescriptor

variable (d : TypeDescriptor) (name : String) (receiver : Receiver) (arity : Option Nat)
  (body : MemberBody)

@[simp] theorem bare_satisfies (type : HostType) (delegate : Option Signature) :
    Satisfies P { type, delegate } := by
  simp [Satisfies]

theorem addMember_satisfies (m : Member) :
    (d.addMember m).Satisfies P ↔ d.Satisfies P ∧ m.Satisfies P := by
  simp [Satisfies, addMember, or_imp, forall_and]

@[simp] theorem constructor_satisfies :
    (d.constructor arity body).Satisfies P ↔ d.Satisfies P ∧ ∀ inv, P (body inv) := by
  simp [constructor, addMember_satisfies, Member.Satisfies]

@[simp] theorem method_satisfies :
    (d.method name receiver arity body).Satisfies P ↔ d.Satisfies P ∧ ∀ inv, P (body inv) := by
  simp [method, addMember_satisfies, Member.Satisfies]

@[simp] theorem procedure_satisfies :
    (d.procedure name receiver arity body).Satisfies P ↔
      d.Satisfies P ∧ ∀ inv, P (body inv) := by
  simp [procedure, addMember_satisfies, Member.Satisfies]

@[simp] theorem field_satisfies :
    (d.field name receiver body).Satisfies P ↔ d.Satisfies P ∧ ∀ inv, P (body inv) := by
  simp [field, addMember_satisfies, Member.Satisfies]

@[simp] theorem property_satisfies :
    (d.property name receiver body).Satisfies P ↔ d.Satisfies P ∧ ∀ inv, P (body inv) := by
  simp [property, addMember_satisfies, Member.Satisfies]

@[simp] theorem event_satisfies :
    (d.event name body).Satisfies P ↔ d.Satisfies P ∧ ∀ inv, P (body inv) := by
  simp [event, addMember_satisfies, Member.Satisfies]

/-- Members of one shape that are added one after the other. -/
theorem foldl_satisfies {α : Type} {add : TypeDescriptor → α → TypeDescriptor}
    (ha : ∀ d a, d.Satisfies P → (add d a).Satisfies P) (l : List α) {d : TypeDescriptor}
    (hd : d.Satisfies P) : (l.foldl add d).Satisfies P := by
  induction l generalizing d with
  | nil => exact hd
  | cons a l ih => exact ih (ha d a hd)

end TypeDescriptor

/-! ## The core module -/

namespace CoreModule

open HostProgram

@[simp] theorem outOfRange_handsOn {α : Type} (i : Nat) :
    (outOfRange i : HostProgram α).HandsOn :=
  trivial

@[simp] theorem theseItems_handsOn (inv : Invocation) : (theseItems inv).HandsOn := by
  simp [theseItems]

@[simp] theorem callOne_handsOn (c : Callback) (v : Value) : (callOne c v).HandsOn := by
  simp only [callOne, bind_handsOn, callBack_handsOn]
  intro r _
  cases r <;> simp

@[simp] theorem mapCalls_handsOn (c : Callback) (vs : List Value) (out : Array Value) :
    (mapCalls c vs out).HandsOn := by
  induction vs generalizing out with
  | nil => simp [mapCalls]
  | cons v vs ih => simp [mapCalls, ih]

@[simp] theorem filterCalls_handsOn (c : Callback) (vs : List Value) (out : Array Value) :
    (filterCalls c vs out).HandsOn := by
  induction vs generalizing out with
  | nil => simp [filterCalls]
  | cons v vs ih =>
    simp only [filterCalls, bind_handsOn, callOne_handsOn, getStore_handsOn]
    intro verdict _ s _
    split <;> simp [ih]

@[simp] theorem callEach_handsOn (args : Array Value) (cs : List Callback) :
    (callEach args cs).HandsOn := by
  induction cs with
  | nil => simp [callEach]
  | cons c cs ih => simp [callEach, ih]

@[simp] theorem item_handsOn (inv : Invocation) : (item inv).HandsOn := by
  simp only [item, bind_handsOn, Invocation.position_handsOn, theseItems_handsOn]
  intro i _ items _
  split <;> simp

theorem list_handsOn : list.HandsOn := by
  simp [list, setItem, insert, removeAt, apply_ite]

theorem signal_handsOn : signal.HandsOn := by
  simp [signal]

theorem string_handsOn : string.HandsOn := by
  simp [string, substring, apply_ite]

theorem stringBuilder_handsOn : stringBuilder.HandsOn := by
  simp [stringBuilder]

@[simp] theorem parse_handsOn (type : String) (inv : Invocation) :
    (parse type inv).HandsOn := by
  simp only [parse, bind_handsOn, Invocation.text_handsOn, getStore_handsOn]
  intro t _ s _
  split <;> simp

@[simp] theorem absolute_handsOn (inv : Invocation) : (absolute inv).HandsOn := by
  simp only [absolute, bind_handsOn, Invocation.arg_handsOn]
  intro v _
  split
  · split <;> simp
  · simp

@[simp] theorem numericPair_handsOn (onIntegers : Int64 → Int64 → Int64)
    (onFloats : Float → Float → Float) (inv : Invocation) :
    (numericPair onIntegers onFloats inv).HandsOn := by
  simp only [numericPair, bind_handsOn, Invocation.arg_handsOn]
  intro v _ w _
  split <;> simp

theorem math_handsOn : math.HandsOn := by
  simp [math]

theorem numberType_handsOn (name : String) (greatest least : Value) :
    (numberType name greatest least).HandsOn := by
  simp [numberType]

theorem boolean_handsOn : boolean.HandsOn := by
  simp [boolean]

theorem bindingFlags_handsOn : bindingFlags.HandsOn := by
  refine TypeDescriptor.foldl_satisfies (fun d flag hd => ?_) _ (by simp)
  simp [hd]

theorem expressionType_handsOn : expressionType.HandsOn := by
  refine TypeDescriptor.foldl_satisfies (fun d op hd => ?_) _ (by simp)
  simp [hd]

end CoreModule

open CoreModule in
/-- Every member of the core module fails where a callback of its own does. -/
theorem coreModule_handsOn : coreModule.HandsOn := by
  simp [HostModule.Satisfies, coreModule, list_handsOn, signal_handsOn, string_handsOn,
    stringBuilder_handsOn, math_handsOn, numberType_handsOn, boolean_handsOn,
    bindingFlags_handsOn, expressionType_handsOn, int64, double, action, func,
    TypeDescriptor.delegating]

/-- No member of the core module runs a callback from outside of its host call. -/
theorem coreModule_callsOnly : coreModule.CallsOnly :=
  coreModule_handsOn.imp fun _ => HostProgram.HandsOn.callsOnly

end WordStack
