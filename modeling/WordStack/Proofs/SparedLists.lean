import WordStack.Proofs.Inheritance
import WordStack.Proofs.MemberAccess
import WordStack.Proofs.Registrations
import WordStack.Proofs.Trees

/-!
# Members that change lists

Five members of the type `List` change the list that is their target, and no member of the core
module changes any other list: what they build are new lists. `HostProgram.Spares` says of a program
that none of its writes touches the list; it is carried through the programs that members are made
of, as far as a call does not name the list as the target of one of the five (`invoke_spares`).
-/

namespace WordStack

/-! ## Stores -/

/-- The list is as it was, if it was there. -/
def Store.Spares (l : ListId) (s s' : Store) : Prop :=
  s.Live l → s'.Live l ∧ s'.items l = s.items l

namespace Store

variable {l : ListId} {s s₁ s₂ : Store}

theorem Spares.refl (l : ListId) (s : Store) : s.Spares l s := fun h => ⟨h, rfl⟩

theorem Spares.trans (h : s.Spares l s₁) (h' : s₁.Spares l s₂) : s.Spares l s₂ := fun hl =>
  ⟨(h' (h hl).1).1, (h' (h hl).1).2.trans (h hl).2⟩

theorem Extends.spares (h : s.Extends s₁) : s.Spares l s₁ := fun hl => ⟨h.live l hl, h.items l hl⟩

theorem spares_of_lists_eq (h : s₁.lists = s.lists) : s.Spares l s₁ := fun hl =>
  ⟨by rw [Live, h]; exact hl, by rw [items, items, h]⟩

theorem spares_modifyItems {l' : ListId} (h : l' ≠ l) (f : Array Value → Array Value) :
    s.Spares l (s.modifyItems l' f) := fun hl =>
  ⟨by simpa [Live, modifyItems] using hl, items_modifyItems_of_ne h.symm⟩

end Store

/-! ## Host programs -/

namespace HostProgram

variable {α β : Type} {l : ListId}

/-- Whatever it reads and whatever its callbacks answer, the program does not change the list. -/
def Spares (l : ListId) : HostProgram α → Prop
  | .done _ | .fail _ => True
  | .read k => ∀ s, (k s).Spares l
  | .write f k => (∀ s : Store, s.Spares l (f s)) ∧ k.Spares l
  | .call _ _ k => ∀ r, (k r).Spares l
  | .invoke _ _ k => ∀ r, (k r).Spares l

theorem spares_hereditary (l : ListId) : Hereditary (Spares l) :=
  ⟨fun _ => trivial, fun h => h, fun h => h.2, fun h => h, fun h => h⟩

theorem canYield_bind {p : HostProgram α} {f : α → HostProgram β} {b : β} :
    (p >>= f).CanYield b ↔ ∃ a, p.CanYield a ∧ (f a).CanYield b := by
  change (p.bind f).CanYield b ↔ _
  induction p with
  | done a => simp [HostProgram.bind, CanYield]
  | fail e => simp [HostProgram.bind, CanYield]
  | read k ih =>
    simp only [HostProgram.bind, CanYield, ih, ← exists_and_right]
    exact exists_comm
  | write g k ih => exact ih
  | call c args k ih =>
    simp only [HostProgram.bind, CanYield, ih, ← exists_and_right]
    exact exists_comm
  | invoke c args k ih =>
    simp only [HostProgram.bind, CanYield, ih, ← exists_and_right]
    exact exists_comm

@[simp] theorem pure_spares (a : α) : (pure a : HostProgram α).Spares l := trivial

@[simp] theorem done_spares (a : α) : (done a).Spares l := trivial

@[simp] theorem fail_spares (e : HostError) : (fail e : HostProgram α).Spares l := trivial

@[simp] theorem bind_spares {p : HostProgram α} (hp : p.Spares l) (f : α → HostProgram β) :
    (p >>= f).Spares l ↔ ∀ a, p.CanYield a → (f a).Spares l := by
  change (p.bind f).Spares l ↔ _
  induction p with
  | done b => simp [HostProgram.bind, CanYield]
  | fail e => simp [HostProgram.bind, CanYield]
  | read k ih =>
    simp only [HostProgram.bind, Spares, CanYield, ih _ (hp _), forall_exists_index]
    exact forall_comm
  | write g k ih =>
    simp only [HostProgram.bind, Spares, CanYield, ih hp.2]
    exact ⟨fun h => h.2, fun h => ⟨hp.1, h⟩⟩
  | call c args k ih =>
    simp only [HostProgram.bind, Spares, CanYield, ih _ (hp _), forall_exists_index]
    exact forall_comm
  | invoke c args k ih =>
    simp only [HostProgram.bind, Spares, CanYield, ih _ (hp _), forall_exists_index]
    exact forall_comm

@[simp] theorem map_spares {p : HostProgram α} (hp : p.Spares l) (f : α → β) :
    (f <$> p).Spares l := by
  change (p >>= fun a => pure (f a)).Spares l
  simp [hp]

@[simp] theorem getStore_spares : getStore.Spares l := fun _ => trivial

@[simp] theorem query_spares (f : Store → α) : (query f).Spares l := fun _ => trivial

theorem modifyStore_spares {f : Store → Store} (h : ∀ s : Store, s.Spares l (f s)) :
    (modifyStore f).Spares l := ⟨h, trivial⟩

@[simp] theorem setPayload_spares (o : HostObject) (p : Payload) :
    (modifyStore (·.setPayload o p)).Spares l :=
  modifyStore_spares fun _ => Store.spares_of_lists_eq rfl

@[simp] theorem newList_spares (values : Array Value) : (newList values).Spares l :=
  fun _ => ⟨fun s => (s.extends_newList values).spares, trivial⟩

@[simp] theorem newObject_spares (type : HostType) (payload : Payload) :
    (newObject type payload).Spares l :=
  fun _ => ⟨fun _ => Store.spares_of_lists_eq rfl, trivial⟩

@[simp] theorem badArgument_spares (index : Nat) (expected : String) (found : Value) :
    (badArgument index expected found : HostProgram α).Spares l :=
  fun _ => trivial

@[simp] theorem callBack_spares (c : Callback) (args : Array Value) :
    (callBack c args).Spares l := by
  rintro (_ | _) <;> trivial

end HostProgram

namespace Invocation

open HostProgram

variable {α : Type} {l : ListId} (inv : Invocation) (i : Nat)

@[simp] theorem arg_spares : (inv.arg i).Spares l := by
  unfold arg
  split <;> trivial

@[simp] theorem argAs_spares (expected : String) (pick : Value → Option α) :
    (inv.argAs i expected pick).Spares l := by
  simp only [argAs, bind_spares, arg_spares]
  intro v _
  split <;> simp

@[simp] theorem integer_spares : (inv.integer i).Spares l := inv.argAs_spares ..

@[simp] theorem float_spares : (inv.float i).Spares l := inv.argAs_spares ..

@[simp] theorem text_spares : (inv.text i).Spares l := inv.argAs_spares ..

@[simp] theorem callback_spares : (inv.callback i).Spares l := inv.argAs_spares ..

@[simp] theorem position_spares : (inv.position i).Spares l := by
  simp only [position, bind_spares, integer_spares]
  intro n _
  split <;> simp

@[simp] theorem this_spares : inv.this.Spares l := by
  unfold this
  split <;> trivial

@[simp] theorem thisAs_spares (expected : String) (pick : Value → Option α) :
    (inv.thisAs expected pick).Spares l := by
  simp only [thisAs, bind_spares, this_spares]
  intro v _
  split <;> simp

@[simp] theorem thisText_spares : inv.thisText.Spares l := inv.thisAs_spares ..

@[simp] theorem thisList_spares : inv.thisList.Spares l := inv.thisAs_spares ..

@[simp] theorem thisObject_spares (expected : String) (pick : Payload → Option α) :
    (inv.thisObject expected pick).Spares l := by
  simp only [thisObject, bind_spares, this_spares]
  intro v _
  split
  · simp only [bind_spares, query_spares]
    intro payload _
    split <;> simp
  · simp

/-- The list that a member acts on is its target. -/
theorem target_of_thisList {l' : ListId} (h : inv.thisList.CanYield l') :
    inv.target = some (.list l') := by
  obtain ⟨v, hv, hl⟩ := canYield_bind.1 h
  have htarget : inv.target = some v := by
    unfold this at hv
    split at hv
    · next u hu => rw [hu, show u = v from hv]
    · cases hv
  cases v with
  | list l =>
    obtain rfl : l = l' := hl
    exact htarget
  | _ => obtain ⟨s, hs⟩ := hl; cases hs

end Invocation

/-! ## The core module -/

/-- The members that change the list that is their target, by name and number of arguments. -/
def listMutators : List (String × Nat) :=
  [("Add", 1), ("Insert", 2), ("RemoveAt", 1), ("Clear", 0), ("Item", 2)]

def Member.MutatesTarget (m : Member) : Prop :=
  ∃ e ∈ listMutators, m.name = e.1 ∧ m.arity = some e.2

namespace CoreModule

open HostProgram

variable {l : ListId}

@[simp] theorem outOfRange_spares {α : Type} (i : Nat) :
    (outOfRange i : HostProgram α).Spares l := trivial

@[simp] theorem theseItems_spares (inv : Invocation) : (theseItems inv).Spares l := by
  simp [theseItems]

@[simp] theorem callOne_spares (c : Callback) (v : Value) : (callOne c v).Spares l := by
  simp only [callOne, bind_spares, callBack_spares]
  intro r _
  cases r <;> simp

@[simp] theorem mapCalls_spares (c : Callback) (vs : List Value) (out : Array Value) :
    (mapCalls c vs out).Spares l := by
  induction vs generalizing out with
  | nil => simp [mapCalls]
  | cons v vs ih => simp [mapCalls, ih]

@[simp] theorem filterCalls_spares (c : Callback) (vs : List Value) (out : Array Value) :
    (filterCalls c vs out).Spares l := by
  induction vs generalizing out with
  | nil => simp [filterCalls]
  | cons v vs ih =>
    simp only [filterCalls, bind_spares, callOne_spares, getStore_spares]
    intro verdict _ s _
    split <;> simp [ih]

@[simp] theorem callEach_spares (args : Array Value) (cs : List Callback) :
    (callEach args cs).Spares l := by
  induction cs with
  | nil => simp [callEach]
  | cons c cs ih => simp [callEach, ih]

@[simp] theorem item_spares (inv : Invocation) : (item inv).Spares l := by
  simp only [item, bind_spares, Invocation.position_spares, theseItems_spares]
  intro i _ items _
  split <;> simp

section Changes

variable {inv : Invocation} (h : inv.target ≠ some (.list l))

include h

/-- What changes the target changes no other list. -/
theorem change_spares {l' : ListId} (hl : inv.thisList.CanYield l')
    (f : Array Value → Array Value) :
    (modifyStore (·.modifyItems l' f) >>= fun _ => pure (none : Option Value)).Spares l := by
  have hne : l' ≠ l := by
    rintro rfl
    exact h (inv.target_of_thisList hl)
  rw [bind_spares (modifyStore_spares fun _ => Store.spares_modifyItems hne f)]
  exact fun _ _ => pure_spares none

theorem setItem_spares : (setItem inv).Spares l := by
  simp only [setItem, bind_spares, Invocation.position_spares, Invocation.thisList_spares,
    Invocation.arg_spares, query_spares]
  intro i _ l' hl v _ fits _
  split
  · exact change_spares h hl (·.setIfInBounds i v)
  · simp

theorem insert_spares : (insert inv).Spares l := by
  simp only [insert, bind_spares, Invocation.position_spares, Invocation.thisList_spares,
    Invocation.arg_spares, query_spares]
  intro i _ l' hl v _ fits _
  split
  · exact change_spares h hl (·.insertIdxIfInBounds i v)
  · simp

theorem removeAt_spares : (removeAt inv).Spares l := by
  simp only [removeAt, bind_spares, Invocation.position_spares, Invocation.thisList_spares,
    query_spares]
  intro i _ l' hl fits _
  split
  · exact change_spares h hl (·.eraseIdxIfInBounds i)
  · simp

end Changes

/-- Each member of lists spares a list, unless it is one of the five and the list its target. -/
theorem list_spares {m : Member} (hm : m ∈ list.members) : m.setter = none ∧
    ∀ inv : Invocation, (m.MutatesTarget → inv.target ≠ some (.list l)) →
      (m.body inv).Spares l := by
  revert m
  simp only [list, TypeDescriptor.constructor, TypeDescriptor.method, TypeDescriptor.procedure,
    TypeDescriptor.property, TypeDescriptor.mem_addMember, or_imp, forall_and, forall_eq]
  simp +contextual [Member.MutatesTarget, listMutators, setItem_spares, insert_spares,
    removeAt_spares]
  exact ⟨fun inv h l' hl v _ => change_spares h hl (·.push v),
    fun inv h l' hl => change_spares h hl fun _ => #[]⟩

theorem signal_spares : signal.Satisfies (HostProgram.Spares l) := by
  simp [signal]

theorem string_spares : string.Satisfies (HostProgram.Spares l) := by
  simp [string, substring, apply_ite]

theorem stringBuilder_spares : stringBuilder.Satisfies (HostProgram.Spares l) := by
  simp [stringBuilder]

@[simp] theorem parse_spares (type : String) (inv : Invocation) : (parse type inv).Spares l := by
  simp only [parse, bind_spares, Invocation.text_spares, getStore_spares]
  intro t _ s _
  split <;> simp

@[simp] theorem absolute_spares (inv : Invocation) : (absolute inv).Spares l := by
  simp only [absolute, bind_spares, Invocation.arg_spares]
  intro v _
  split
  · split <;> simp
  · simp

@[simp] theorem numericPair_spares (onIntegers : Int64 → Int64 → Int64)
    (onFloats : Float → Float → Float) (inv : Invocation) :
    (numericPair onIntegers onFloats inv).Spares l := by
  simp only [numericPair, bind_spares, Invocation.arg_spares]
  intro v _ w _
  split <;> simp

theorem math_spares : math.Satisfies (HostProgram.Spares l) := by
  simp [math]

theorem numberType_spares (name : String) (greatest least : Value) :
    (numberType name greatest least).Satisfies (HostProgram.Spares l) := by
  simp [numberType]

theorem boolean_spares : boolean.Satisfies (HostProgram.Spares l) := by
  simp [boolean]

theorem bindingFlags_spares : bindingFlags.Satisfies (HostProgram.Spares l) := by
  refine TypeDescriptor.foldl_satisfies (fun d flag hd => ?_) _ (by simp)
  simp [hd]

theorem expressionType_spares : expressionType.Satisfies (HostProgram.Spares l) := by
  refine TypeDescriptor.foldl_satisfies (fun d op hd => ?_) _ (by simp)
  simp [hd]

/-- Apart from those of lists, the members of the core module change no list. -/
theorem coreModule_spares {d : TypeDescriptor} (hd : d ∈ coreModule.types) :
    d = list ∨ d.Satisfies (HostProgram.Spares l) := by
  revert d
  simp [coreModule, signal_spares, string_spares, stringBuilder_spares, math_spares,
    numberType_spares, boolean_spares, bindingFlags_spares, expressionType_spares, int64, double,
    action, func, TypeDescriptor.delegating]

end CoreModule

/-! ## Calls -/

/-- The call is one of a member that changes lists, and the list is its target. -/
def HostCall.Mutates (call : HostCall) (l : ListId) : Prop :=
  call.type = .core "List" ∧ call.target = some (.list l) ∧
    ∃ m body, Registry.bodyOf CoreModule.list call = .ok (m, body) ∧ m.MutatesTarget

namespace Registry

/-- The type of a descriptor that is found is the one that is looked for. -/
theorem Sound.type_eq {r : Registry} (h : r.Sound) {type : HostType} {d : TypeDescriptor}
    (hd : r.descriptor? type = some d) : d.type = type := by
  have hindexed : r.Indexed type := by
    unfold descriptor? at hd
    split at hd
    · next t name i hfind =>
      exact ⟨_, List.mem_of_find?_eq_some hfind, by simpa using List.find?_some hfind⟩
    · cases hd
  obtain ⟨d', hd', htype⟩ := h.descriptor_of_indexed hindexed
  rw [Option.some.inj (hd.symm.trans hd'), htype]

/-- With the core module alone, a call changes a list only if it is one of a member that does so,
for the list. -/
theorem invoke_spares {call : HostCall} {l : ListId} (h : ¬ call.Mutates l) :
    ((ofModules [coreModule]).invoke call).Spares l := by
  unfold invoke
  split
  · trivial
  · next d hd =>
    split
    · trivial
    · next m body hb =>
      split
      · trivial
      obtain ⟨mod, hmod, hdm⟩ := mem_of_descriptor hd
      obtain rfl : mod = coreModule := by simpa [ofModules, register] using hmod
      rcases CoreModule.coreModule_spares hdm with rfl | hsat
      · obtain ⟨hm, hbody⟩ := mem_of_bodyOf hb
        obtain ⟨hsetter, hspares⟩ := CoreModule.list_spares hm
        obtain rfl : body = m.body := hbody.resolve_right (by simp [hsetter])
        have htype : CoreModule.list.type = call.type := (sound_ofModules _).type_eq hd
        exact hspares _ fun hmut htarget => h ⟨htype.symm, htarget, m, _, hb, hmut⟩
      · exact bodyOf_satisfies hsat hb _

end Registry

end WordStack
