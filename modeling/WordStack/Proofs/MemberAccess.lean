import WordStack.Host.Registry

/-!
# The members that calls reach

What a name means on a type is told before the call, from all the members of that name; the call
then searches by the flags that follow from the answer, among the members of one kind alone. The two
searches find the same member, in any type that is made of declarations: a field or a property takes
no arguments, only constructors have the name of constructors, and an event has a method that adds
handlers to it (`Declared`). So a call never lacks the member that was found before
(`resolved_is_reached`), but a member of instances lacks its target where the type itself is asked
(`target_lacking`).
-/

namespace WordStack

/-! ## Types made of declarations -/

/-- A call of one of the builders of a type. -/
inductive Declaration where
  | constructor (arity : Option Nat) (body : MemberBody)
  | method (name : String) (receiver : Receiver) (arity : Option Nat) (body : MemberBody)
  | procedure (name : String) (receiver : Receiver) (arity : Option Nat) (body : MemberBody)
  | field (name : String) (receiver : Receiver) (body : MemberBody)
  | property (name : String) (receiver : Receiver) (body : MemberBody)
  | settable (name : String) (body : MemberBody)
  | event (name : String) (body : MemberBody)
  | delegating (signature : Signature)

/-- The name of the method that adds handlers to an event. -/
def accessorName (name : String) : String := "add_" ++ name

namespace TypeDescriptor

def declare (d : TypeDescriptor) : Declaration → TypeDescriptor
  | .constructor arity body => d.constructor arity body
  | .method name receiver arity body => d.method name receiver arity body
  | .procedure name receiver arity body => d.procedure name receiver arity body
  | .field name receiver body => d.field name receiver body
  | .property name receiver body => d.property name receiver body
  | .settable name body => d.settable name body
  | .event name body => d.event name body
  | .delegating signature => d.delegating signature

/-- The type that is made by the declarations, one after the other. -/
def ofDeclarations (type : HostType) (ds : List Declaration) : TypeDescriptor :=
  ds.foldl declare { type }

/-- The member adds handlers to the event. -/
structure Adds (accessor event : Member) : Prop where
  name : accessor.name = accessorName event.name
  kind : accessor.kind = .method false
  receiver : accessor.receiver = .ofInstance
  arity : accessor.arity = some 1
  body : accessor.body = event.body

/-- What the members of a type that is made of declarations are like. -/
structure Declared (d : TypeDescriptor) : Prop where
  data : ∀ m ∈ d.members, m.kind.isData = true → m.arity = some 0
  constructors : ∀ m ∈ d.members, m.kind = .constructor → m.name = constructorName
  events : ∀ m ∈ d.members, m.kind = .event → ∃ a ∈ d.members, Adds a m

variable {d : TypeDescriptor} {name : String} {count : Nat} {m : Member}

theorem mem_addMember {x : Member} :
    x ∈ (d.addMember m).members ↔ x ∈ d.members ∨ x = m := by
  simp [addMember]

/-- A member that is no event keeps a type as it should be, if it is as it should be itself. -/
theorem Declared.addMember (h : d.Declared) (hdata : m.kind.isData = true → m.arity = some 0)
    (hconstructor : m.kind = .constructor → m.name = constructorName) (hevent : m.kind ≠ .event) :
    (d.addMember m).Declared where
  data x hx hk := (mem_addMember.1 hx).elim (h.data x · hk) fun he => by
    subst he
    exact hdata hk
  constructors x hx hk := (mem_addMember.1 hx).elim (h.constructors x · hk) fun he => by
    subst he
    exact hconstructor hk
  events x hx hk := by
    rcases mem_addMember.1 hx with hx | rfl
    · obtain ⟨a, ha, hadds⟩ := h.events x hx hk
      exact ⟨a, mem_addMember.2 (.inl ha), hadds⟩
    · exact absurd hk hevent

theorem Declared.event (h : d.Declared) (body : MemberBody) : (d.event name body).Declared := by
  have hadder : (d.addMember ⟨accessorName name, .method false, .ofInstance, some 1, true, body,
      none⟩).Declared :=
    h.addMember (fun hk => by cases hk) (fun hk => by cases hk) (fun hk => by cases hk)
  refine ⟨fun x hx hk => ?_, fun x hx hk => ?_, fun x hx hk => ?_⟩
  · rcases mem_addMember.1 hx with hx | rfl
    · exact hadder.data x hx hk
    · cases hk
  · rcases mem_addMember.1 hx with hx | rfl
    · exact hadder.constructors x hx hk
    · cases hk
  · rcases mem_addMember.1 hx with hx | rfl
    · obtain ⟨a, ha, hadds⟩ := hadder.events x hx hk
      exact ⟨a, mem_addMember.2 (.inl ha), hadds⟩
    · exact ⟨_, mem_addMember.2 (.inl (mem_addMember.2 (.inr rfl))), rfl, rfl, rfl, rfl, rfl⟩

theorem data_of_findIdx? {i : Nat}
    (hi : d.members.findIdx? (fun m => m.name == name && m.kind.isData) = some i)
    (hm : d.members[i]? = some m) : m.kind.isData = true := by
  obtain ⟨hlt, hp, -⟩ := Array.findIdx?_eq_some_iff_getElem.1 hi
  obtain ⟨-, rfl⟩ := Array.getElem?_eq_some_iff.1 hm
  exact (Bool.and_eq_true_iff.1 hp).2

/-- The members of a type after one of them has got a setter. -/
theorem mem_settable {body : MemberBody} {x : Member} (hx : x ∈ (d.settable name body).members) :
    x ∈ d.members ∨ ∃ m ∈ d.members, m.kind.isData = true ∧ x = { m with setter := some body } := by
  unfold settable at hx
  split at hx
  · next i hi =>
    obtain ⟨j, hj⟩ := Array.mem_iff_getElem?.1 hx
    rw [Array.getElem?_modify] at hj
    split at hj
    · next hij =>
      subst hij
      obtain ⟨m, hm, rfl⟩ := Option.map_eq_some_iff.1 hj
      exact .inr ⟨m, Array.mem_of_getElem? hm, data_of_findIdx? hi hm, rfl⟩
    · exact .inl (Array.mem_of_getElem? hj)
  · exact .inl hx

theorem mem_settable_of_not_data {body : MemberBody} (hm : m ∈ d.members)
    (hk : m.kind.isData = false) : m ∈ (d.settable name body).members := by
  unfold settable
  split
  · next i hi =>
    obtain ⟨j, hj⟩ := Array.mem_iff_getElem?.1 hm
    refine Array.mem_iff_getElem?.2 ⟨j, ?_⟩
    have hne : i ≠ j := by
      rintro rfl
      cases hk.symm.trans (data_of_findIdx? hi hj)
    rw [Array.getElem?_modify, if_neg hne, hj]
  · exact hm

theorem Declared.settable (h : d.Declared) (body : MemberBody) :
    (d.settable name body).Declared where
  data x hx hk := by
    rcases mem_settable hx with hx | ⟨m, hm, hdata, rfl⟩
    · exact h.data x hx hk
    · exact h.data m hm hdata
  constructors x hx hk := by
    rcases mem_settable hx with hx | ⟨m, hm, -, rfl⟩
    · exact h.constructors x hx hk
    · exact h.constructors m hm hk
  events x hx hk := by
    rcases mem_settable hx with hx | ⟨m, -, hdata, rfl⟩
    · obtain ⟨a, ha, hadds⟩ := h.events x hx hk
      exact ⟨a, mem_settable_of_not_data ha (by rw [hadds.kind]; rfl), hadds⟩
    · rw [show m.kind = .event from hk] at hdata
      cases hdata

theorem Declared.declare (h : d.Declared) (x : Declaration) : (d.declare x).Declared := by
  cases x with
  | constructor arity body => exact h.addMember (fun hk => by cases hk) (fun _ => rfl) (by simp)
  | method name receiver arity body =>
    exact h.addMember (fun hk => by cases hk) (fun hk => by cases hk) (by simp)
  | procedure name receiver arity body =>
    exact h.addMember (fun hk => by cases hk) (fun hk => by cases hk) (by simp)
  | field name receiver body =>
    exact h.addMember (fun _ => rfl) (fun hk => by cases hk) (by simp)
  | property name receiver body =>
    exact h.addMember (fun _ => rfl) (fun hk => by cases hk) (by simp)
  | settable name body => exact h.settable body
  | event name body => exact h.event body
  | delegating signature => exact ⟨h.data, h.constructors, h.events⟩

/-- However a type is made, its members are as they should be. -/
theorem declared_ofDeclarations (type : HostType) (ds : List Declaration) :
    (ofDeclarations type ds).Declared := by
  have from_here (d : TypeDescriptor) (h : d.Declared) : (ds.foldl declare d).Declared := by
    induction ds generalizing d with
    | nil => exact h
    | cons x ds ih => exact ih _ (h.declare x)
  exact from_here { type } ⟨by simp, by simp, by simp⟩

@[simp] theorem type_declare (d : TypeDescriptor) (x : Declaration) :
    (d.declare x).type = d.type := by
  cases x with
  | settable name body =>
    simp only [declare, settable]
    split <;> rfl
  | _ => rfl

@[simp] theorem type_ofDeclarations (type : HostType) (ds : List Declaration) :
    (ofDeclarations type ds).type = type := by
  have from_here (d : TypeDescriptor) : (ds.foldl declare d).type = d.type := by
    induction ds generalizing d with
    | nil => rfl
    | cons x ds ih => rw [List.foldl_cons, ih, type_declare]
  exact from_here { type }

/-! ## Two searches -/

variable (d) in
/-- The first member of that name that takes as many arguments. -/
def firstTaking? (name : String) (count : Nat) : Option Member :=
  d.members.toList.find? fun m => m.name == name && m.takes count

variable (d) in
/-- The first field or property of that name. -/
def firstData? (name : String) : Option Member :=
  d.members.toList.find? fun m => m.name == name && m.kind.isData

/-- What is found first is found first by any other search that admits it, and no more. -/
theorem find?_of_fewer {α : Type} {xs : List α} {p q : α → Bool} {x : α} (h : xs.find? p = some x)
    (hx : q x = true) (hfewer : ∀ y ∈ xs, q y = true → p y = true) : xs.find? q = some x := by
  obtain ⟨-, before, after, rfl, hbefore⟩ := List.find?_eq_some_iff_append.1 h
  refine List.find?_eq_some_iff_append.2 ⟨hx, before, after, rfl, fun y hy => ?_⟩
  have hnot : p y = false := by simpa using hbefore y hy
  have hadmits := hfewer y (List.mem_append_left _ hy)
  cases hq : q y with
  | false => rfl
  | true => exact absurd (hadmits hq) (by simp [hnot])

variable (d) in
theorem find?_named (name : String) (accepts : Member → Bool) (takes : Member → Bool) :
    (d.members.toList.filter fun m => m.name == name && accepts m).find? takes =
      d.members.toList.find? fun m => m.name == name && accepts m && takes m := by
  rw [List.find?_filter]
  congr 1
  funext m
  by_cases hname : m.name = name <;> simp [hname]

theorem resolve_of_taken (h : d.firstTaking? name count = some m) :
    d.resolve name count = m.kind := by
  have hall := d.find?_named name (fun _ => true) (·.takes count)
  simp only [Bool.and_true] at hall
  simp only [resolve, hall]
  rw [firstTaking?] at h
  rw [h]

theorem resolve_of_untaken (h : d.firstTaking? name count = none) : d.resolve name count =
    ((d.members.toList.find? (·.name == name)).map (·.kind)).getD .missing := by
  have hall := d.find?_named name (fun _ => true) (·.takes count)
  simp only [Bool.and_true] at hall
  simp only [resolve, hall, List.head?_filter]
  rw [firstTaking?] at h
  rw [h]

/-- What a name means is the kind of a member of that name. -/
theorem exists_of_resolve {kind : MemberKind} (h : d.resolve name count = kind)
    (hk : kind ≠ .missing) : ∃ m ∈ d.members, m.name = name ∧ m.kind = kind := by
  cases ht : d.firstTaking? name count with
  | some m =>
    have hm : m ∈ d.members := by simpa using List.mem_of_find?_eq_some ht
    have hname : m.name = name := by
      have := List.find?_some ht
      simp only [Bool.and_eq_true, beq_iff_eq] at this
      exact this.1
    exact ⟨m, hm, hname, (resolve_of_taken ht).symm.trans h⟩
  | none =>
    rw [resolve_of_untaken ht] at h
    cases hn : d.members.toList.find? (·.name == name) with
    | none =>
      rw [hn] at h
      exact absurd h.symm hk
    | some m =>
      rw [hn] at h
      exact ⟨m, by simpa using List.mem_of_find?_eq_some hn, by simpa using List.find?_some hn, h⟩

variable {accepts : Member → Bool}

theorem select_of_first (h : d.members.toList.find?
    (fun m => m.name == name && accepts m && m.takes count) = some m) :
    d.select name count accepts = .ok m := by
  have hmem : m ∈ d.members.toList.filter fun m => m.name == name && accepts m := by
    have hm := List.find?_some h
    exact List.mem_filter.2 ⟨List.mem_of_find?_eq_some h, (Bool.and_eq_true_iff.1 hm).1⟩
  unfold select
  dsimp only
  rw [if_neg fun hempty => List.ne_nil_of_mem hmem (List.isEmpty_iff.1 hempty),
    d.find?_named name accepts, h]

variable (accepts) in
/-- Where there are members to choose from, none of them is said to be missing. -/
theorem select_of_mem (count : Nat) (hm : m ∈ d.members) (hname : m.name = name)
    (ha : accepts m = true) :
    (∃ x, d.select name count accepts = .ok x) ∨
      d.select name count accepts = .error (.noOverload d.type.name name count) := by
  have hmem : m ∈ d.members.toList.filter fun m => m.name == name && accepts m :=
    List.mem_filter.2 ⟨by simpa using hm, by simp [hname, ha]⟩
  unfold select
  dsimp only
  rw [if_neg fun hempty => List.ne_nil_of_mem hmem (List.isEmpty_iff.1 hempty)]
  split
  · next x _ => exact .inl ⟨x, rfl⟩
  · exact .inr rfl

theorem select_of_untaken (hm : m ∈ d.members) (hname : m.name = name) (ha : accepts m = true)
    (h : d.firstTaking? name count = none) :
    d.select name count accepts = .error (.noOverload d.type.name name count) := by
  rcases select_of_mem accepts count hm hname ha with ⟨x, hx⟩ | hno
  · unfold select at hx
    dsimp only at hx
    split at hx
    · cases hx
    · split at hx
      · next y hy =>
        have hy' := List.find?_some hy
        have hmem := List.mem_filter.1 (List.mem_of_find?_eq_some hy)
        have hnone := List.find?_eq_none.1 h y hmem.1
        simp only [Bool.and_eq_true] at hmem hnone
        exact absurd ⟨hmem.2.1, hy'⟩ hnone
      · cases hx
  · exact hno

/-! ## What a name means, and what is found under it -/

/-- A name that means a method is that of the first member that takes as many arguments, or it has
a method at least. -/
theorem method_found {returns : Bool} (h : d.resolve name count = .method returns) :
    (∃ m, d.firstTaking? name count = some m ∧ m.kind = .method returns ∧
      d.select name count (·.kind.isMethod) = .ok m) ∨
    d.firstTaking? name count = none ∧ d.select name count (·.kind.isMethod) =
      .error (.noOverload d.type.name name count) := by
  cases ht : d.firstTaking? name count with
  | some m =>
    have hk : m.kind = .method returns := (resolve_of_taken ht).symm.trans h
    refine .inl ⟨m, rfl, hk, select_of_first (find?_of_fewer ht ?_ fun x _ hx => ?_)⟩
    · have hm := List.find?_some ht
      simp only [Bool.and_eq_true] at hm
      simp [hm.1, hm.2, hk, MemberKind.isMethod]
    · simp only [Bool.and_eq_true] at hx
      simp [hx.1.1, hx.2]
  | none =>
    obtain ⟨m, hm, hname, hk⟩ := exists_of_resolve h (by simp)
    exact .inr ⟨rfl, select_of_untaken hm hname (by rw [hk]; rfl) ht⟩

theorem Declared.takes_iff (hd : d.Declared) (hm : m ∈ d.members.toList)
    (hk : m.kind.isData = true) : m.takes count = true ↔ count = 0 := by
  rw [Member.takes, hd.data m (by simpa using hm) hk]
  exact beq_iff_eq.trans eq_comm

/-- A name that means a field or a property is that of the first one. -/
theorem firstData_found (hd : d.Declared) (h : (d.resolve name count).isData = true) :
    ∃ m, d.firstData? name = some m ∧ m.kind = d.resolve name count := by
  cases ht : d.firstTaking? name count with
  | some m =>
    have hk := resolve_of_taken ht
    have hm := List.find?_some ht
    simp only [Bool.and_eq_true] at hm
    have hdata : m.kind.isData = true := by rwa [hk] at h
    -- a field takes no arguments, so one is found here only where none are given
    obtain rfl := (hd.takes_iff (List.mem_of_find?_eq_some ht) hdata).1 hm.2
    refine ⟨m, find?_of_fewer ht (by simp [hm.1, hdata]) fun x hx hq => ?_, hk.symm⟩
    simp only [Bool.and_eq_true] at hq
    simp [hq.1, (hd.takes_iff hx hq.2).2]
  | none =>
    have hk := resolve_of_untaken ht
    cases hn : d.members.toList.find? (·.name == name) with
    | none =>
      rw [hn] at hk
      rw [hk] at h
      cases h
    | some m =>
      rw [hn] at hk
      have hdata : m.kind.isData = true := by rwa [hk] at h
      have hm := List.find?_some hn
      refine ⟨m, find?_of_fewer hn (by simp [hm, hdata]) fun x _ hq => ?_, hk.symm⟩
      simp only [Bool.and_eq_true] at hq
      simp [hq.1]

/-- The first field or property of a name takes no arguments, and so it is the one to be used. -/
theorem data_found (hd : d.Declared) (h : (d.resolve name count).isData = true) :
    ∃ m, d.firstData? name = some m ∧ m.kind = d.resolve name count ∧
      d.select name 0 (·.kind.isData) = .ok m := by
  obtain ⟨m, hf, hk⟩ := firstData_found hd h
  have hm := List.find?_some hf
  simp only [Bool.and_eq_true] at hm
  have htakes := (hd.takes_iff (List.mem_of_find?_eq_some hf) hm.2).2 rfl
  refine ⟨m, hf, hk, select_of_first (find?_of_fewer hf ?_ fun x _ hx => ?_)⟩
  · simp [hm.1, hm.2, htakes]
  · simp only [Bool.and_eq_true] at hx
    simp [hx.1.1, hx.1.2]

/-- The only member with the name of the accessor of an event is the one that the event has. -/
theorem accessor_found (hd : d.Declared) (hm : m ∈ d.members) (hk : m.kind = .event)
    (hone : (d.members.toList.filter (·.name == accessorName m.name)).length ≤ 1) :
    ∃ a, Adds a m ∧ d.select (accessorName m.name) 1 (·.kind.isMethod) = .ok a := by
  obtain ⟨a, ha, hadds⟩ := hd.events m hm hk
  have hmem : a ∈ d.members.toList.filter (·.name == accessorName m.name) :=
    List.mem_filter.2 ⟨by simpa using ha, by simp [hadds.name]⟩
  obtain ⟨b, hb⟩ : ∃ b, d.members.toList.filter (·.name == accessorName m.name) = [b] := by
    refine List.length_eq_one_iff.1 (Nat.le_antisymm hone ?_)
    exact List.length_pos_iff.2 (List.ne_nil_of_mem hmem)
  obtain rfl : a = b := by simpa [hb] using hmem
  have hchosen : ∀ takes : Member → Bool, takes a = true →
      (d.members.toList.filter (·.name == accessorName m.name)).find? takes = some a := by
    intro takes ht
    rw [hb, List.find?_cons, ht]
  refine ⟨a, hadds, select_of_first ?_⟩
  have hall := hchosen (fun x => x.kind.isMethod && x.takes 1) (by
    simp [hadds.kind, MemberKind.isMethod, Member.takes, hadds.arity])
  have hnamed := d.find?_named (accessorName m.name) (fun _ => true)
    (fun x => x.kind.isMethod && x.takes 1)
  simp only [Bool.and_true] at hnamed
  rw [hnamed] at hall
  simpa only [Bool.and_assoc] using hall

end TypeDescriptor

/-! ## Calls -/

/-- Whether flags make an object, read a field or a property, or write one. -/
theorem forAccess_uses (kind : MemberKind) (receiver : Receiver) (count : Nat) :
    let flags := AccessFlags.forAccess kind receiver count
    flags.contains .createInstance = decide (kind = .constructor) ∧
      flags.intersects (.union .getField .getProperty) = (kind.isData && count == 0) ∧
      flags.intersects (.union .setField .setProperty) = (kind.isData && count != 0) := by
  have table : ∀ receiver, ∀ kind ∈ [MemberKind.constructor, .method true, .method false, .field,
      .property, .event, .missing], ∀ count ∈ [0, 1],
      let flags := AccessFlags.forAccess kind receiver count
      flags.contains .createInstance = decide (kind = .constructor) ∧
        flags.intersects (.union .getField .getProperty) = (kind.isData && count == 0) ∧
        flags.intersects (.union .setField .setProperty) = (kind.isData && count != 0) := by
    rintro (_ | _) <;> decide
  have hkind : kind ∈ [MemberKind.constructor, .method true, .method false, .field, .property,
      .event, .missing] := by
    cases kind with
    | method returns => cases returns <;> simp
    | _ => simp
  cases count with
  | zero => exact table receiver kind hkind 0 (by simp)
  | succ n =>
    -- more arguments than one are no different
    have hone : AccessFlags.forAccess kind receiver (n + 1) = .forAccess kind receiver 1 := by
      cases kind <;> rfl
    rw [hone]
    exact table receiver kind hkind 1 (by simp)

namespace Registry

variable {r : Registry} {d : TypeDescriptor} {kind : MemberKind} {receiver : Receiver}
  {call : HostCall}

/-- Among the methods a call looks for one that takes as many arguments. -/
theorem bodyOf_of_method (hk : kind.isMethod = true ∨ kind = .event)
    (hf : call.flags = .forAccess kind receiver call.args.size) : bodyOf d call =
      (d.select call.member call.args.size (·.kind.isMethod)).map fun m => (m, m.body) := by
  obtain ⟨hcreates, hreads, hwrites⟩ := forAccess_uses kind receiver call.args.size
  have hdata : kind.isData = false ∧ kind ≠ .constructor := by
    cases kind <;> simp_all [MemberKind.isData, MemberKind.isMethod]
  unfold bodyOf
  rw [hf]
  simp [hcreates, hreads, hwrites, hdata]

/-- Without arguments a field or a property is read. -/
theorem bodyOf_of_read (hk : kind.isData = true) (hn : call.args.size = 0)
    (hf : call.flags = .forAccess kind receiver call.args.size) : bodyOf d call =
      (d.select call.member 0 (·.kind.isData)).map fun m => (m, m.body) := by
  obtain ⟨hcreates, hreads, -⟩ := forAccess_uses kind receiver call.args.size
  have hne : kind ≠ .constructor := by
    rintro rfl
    cases hk
  rw [hn] at hf hcreates hreads
  unfold bodyOf
  rw [hf]
  simp [hcreates, hreads, hk, hne, hn]

/-- With arguments a field or a property is written. -/
theorem bodyOf_of_write {m : Member} (hk : kind.isData = true) (hn : call.args.size ≠ 0)
    (hf : call.flags = .forAccess kind receiver call.args.size)
    (hm : d.select call.member 0 (·.kind.isData) = .ok m) : bodyOf d call =
      match m.setter with
      | none => .error (.missingMember call.type.name ("set_" ++ call.member))
      | some body =>
        if call.args.size = 1 then .ok (m, body)
        else .error (.noOverload call.type.name call.member call.args.size) := by
  obtain ⟨hcreates, hreads, hwrites⟩ := forAccess_uses kind receiver call.args.size
  have hne : kind ≠ .constructor := by
    rintro rfl
    cases hk
  unfold bodyOf
  rw [hf]
  cases hsetter : m.setter <;> simp [hcreates, hreads, hwrites, hk, hne, hn, hm, hsetter]

theorem resolve_of_descriptor {type : HostType} {name : String} {count : Nat}
    (hd : r.descriptor? type = some d) (hn : name ≠ TypeDescriptor.constructorName) :
    r.resolve type name count = d.resolve name count := by
  unfold resolve
  rw [hd]
  simp only [if_neg hn]

/-- The call runs the body for the member; a member of instances needs a target. -/
structure Reaches (r : Registry) (call : HostCall) (m : Member) (body : MemberBody) : Prop where
  runs : (m.receiver = .ofInstance → call.target.isSome = true) →
    r.invoke call = body ⟨call.target, call.args⟩
  lacks : m.receiver = .ofInstance → call.target = none →
    r.invoke call = .fail (.missingTarget call.member)

theorem reaches_of_bodyOf {m : Member} {body : MemberBody} (hd : r.descriptor? call.type = some d)
    (h : bodyOf d call = .ok (m, body)) : r.Reaches call m body := by
  have hinvoke : r.invoke call =
      if m.receiver = .ofInstance ∧ call.target.isNone then .fail (.missingTarget call.member)
      else body ⟨call.target, call.args⟩ := by
    unfold invoke
    rw [hd]
    simp only [h]
  constructor
  · intro htarget
    rw [hinvoke, if_neg]
    rintro ⟨hr, hnone⟩
    have hsome := htarget hr
    rw [Option.isNone_iff_eq_none.1 hnone] at hsome
    cases hsome
  · intro hr hnone
    rw [hinvoke, if_pos ⟨hr, by rw [hnone]; rfl⟩]

theorem invoke_of_error {e : HostError} (hd : r.descriptor? call.type = some d)
    (h : bodyOf d call = .error e) : r.invoke call = .fail e := by
  unfold invoke
  rw [hd]
  simp only [h]

/-! ## What a call reaches -/

theorem method_reached {returns : Bool} (hd : r.descriptor? call.type = some d)
    (hk : d.resolve call.member call.args.size = .method returns)
    (hf : call.flags = .forAccess (.method returns) receiver call.args.size) :
    (∃ m, d.firstTaking? call.member call.args.size = some m ∧ m.kind = .method returns ∧
      r.Reaches call m m.body) ∨
    d.firstTaking? call.member call.args.size = none ∧
      r.invoke call = .fail (.noOverload d.type.name call.member call.args.size) := by
  have hbody := bodyOf_of_method (d := d) (.inl rfl) hf
  rcases TypeDescriptor.method_found hk with ⟨m, hm, hmk, hs⟩ | ⟨hm, hs⟩
  · rw [hs] at hbody
    exact .inl ⟨m, hm, hmk, reaches_of_bodyOf hd hbody⟩
  · rw [hs] at hbody
    exact .inr ⟨hm, invoke_of_error hd hbody⟩

theorem data_reached (hd : r.descriptor? call.type = some d) (hmade : d.Declared)
    (hk : kind.isData = true) (hr : d.resolve call.member call.args.size = kind)
    (hf : call.flags = .forAccess kind receiver call.args.size) :
    ∃ m, d.firstData? call.member = some m ∧ m.kind = kind ∧
      (call.args.size = 0 → r.Reaches call m m.body) ∧
      (call.args.size = 1 → ∀ body, m.setter = some body → r.Reaches call m body) ∧
      (call.args.size = 1 → m.setter = none →
        r.invoke call = .fail (.missingMember call.type.name ("set_" ++ call.member))) := by
  obtain ⟨m, hm, hmk, hs⟩ := TypeDescriptor.data_found hmade (by rwa [hr])
  refine ⟨m, hm, hmk.trans hr, fun hn => ?_, fun hn body hset => ?_, fun hn hset => ?_⟩
  · have hbody := bodyOf_of_read (d := d) hk hn hf
    rw [hs] at hbody
    exact reaches_of_bodyOf hd hbody
  · have hbody := bodyOf_of_write hk (by omega) hf hs
    simp only [hset, if_pos hn] at hbody
    exact reaches_of_bodyOf hd hbody
  · have hbody := bodyOf_of_write hk (by omega) hf hs
    simp only [hset] at hbody
    exact invoke_of_error hd hbody

theorem event_reached {e : Member} (hd : r.descriptor? call.type = some d) (hmade : d.Declared)
    (he : e ∈ d.members) (hk : e.kind = .event) (hname : call.member = accessorName e.name)
    (hone : call.args.size = 1)
    (hlone : (d.members.toList.filter (·.name == accessorName e.name)).length ≤ 1)
    (hf : call.flags = .forAccess .event receiver call.args.size) :
    ∃ a, TypeDescriptor.Adds a e ∧ r.Reaches call a e.body := by
  obtain ⟨a, hadds, hs⟩ := TypeDescriptor.accessor_found hmade he hk hlone
  have hbody := bodyOf_of_method (d := d) (.inr rfl) hf
  rw [hname, hone, hs] at hbody
  refine ⟨a, hadds, ?_⟩
  rw [← hadds.body]
  exact reaches_of_bodyOf hd hbody

/-- The name that is called where `name` means a member of that kind. -/
def calledName (kind : MemberKind) (name : String) : String :=
  if kind = .event then accessorName name else name

/-- No name is that of its own setter. -/
theorem setterName_ne (name : String) : "set_" ++ name ≠ name := by
  intro h
  have hlength := congrArg String.length h
  rw [String.length_append] at hlength
  exact absurd hlength (by simp [show "set_".length = 4 from rfl])

/-- A field or a property that is read or written is there; it may lack a setter. -/
theorem bodyOf_of_data_ne_missing {name owner : String} (hmade : d.Declared)
    (hdata : kind.isData = true) (hr : d.resolve name call.args.size = kind)
    (hname : call.member = calledName kind name)
    (hf : call.flags = .forAccess kind receiver call.args.size) :
    bodyOf d call ≠ .error (.missingMember owner call.member) := by
  have hsame : call.member = name := by
    rw [hname]
    exact if_neg fun he => by
      rw [he] at hdata
      cases hdata
  obtain ⟨m, -, -, hs⟩ := TypeDescriptor.data_found hmade (by rwa [hr])
  rw [← hsame] at hs
  by_cases hn : call.args.size = 0
  · rw [bodyOf_of_read hdata hn hf, hs]
    intro hmissing
    cases hmissing
  · rw [bodyOf_of_write hdata hn hf hs]
    intro hmissing
    split at hmissing
    · simp only [Except.error.injEq, HostError.missingMember.injEq] at hmissing
      exact setterName_ne call.member hmissing.2
    · split at hmissing <;> cases hmissing

/-- Where a name means a member of a type, a call does not find that it is missing. -/
theorem bodyOf_ne_missing {name owner : String} (hmade : d.Declared)
    (hn : name ≠ TypeDescriptor.constructorName)
    (hr : d.resolve name call.args.size = kind) (hk : kind ≠ .missing)
    (hname : call.member = calledName kind name)
    (hf : call.flags = .forAccess kind receiver call.args.size) :
    bodyOf d call ≠ .error (.missingMember owner call.member) := by
  by_cases hdata : kind.isData = true
  · exact bodyOf_of_data_ne_missing hmade hdata hr hname hf
  obtain ⟨m, hm, hmn, hmk⟩ := TypeDescriptor.exists_of_resolve hr hk
  have amongMethods {x : Member} (hx : x ∈ d.members) (hxn : x.name = call.member)
      (hxk : x.kind.isMethod = true) :
      (d.select call.member call.args.size (·.kind.isMethod)).map (fun m => (m, m.body)) ≠
        .error (.missingMember owner call.member) := by
    intro hmissing
    rcases TypeDescriptor.select_of_mem (·.kind.isMethod) call.args.size hx hxn hxk with
      ⟨y, hy⟩ | hno
    · rw [hy] at hmissing
      cases hmissing
    · rw [hno] at hmissing
      cases hmissing
  cases kind with
  | constructor => exact absurd (hmn.symm.trans (hmade.constructors m hm hmk)) hn
  | missing => exact absurd rfl hk
  | method returns =>
    rw [bodyOf_of_method (.inl rfl) hf]
    exact amongMethods hm (hmn.trans hname.symm) (by rw [hmk]; rfl)
  | event =>
    obtain ⟨a, ha, hadds⟩ := hmade.events m hm hmk
    rw [bodyOf_of_method (.inr rfl) hf]
    exact amongMethods ha (by rw [hadds.name, hmn, hname]; rfl) (by rw [hadds.kind]; rfl)
  | field => exact absurd rfl hdata
  | property => exact absurd rfl hdata

/-- What a name means on a type is what the call of it reaches: a method is the first member of the
name that takes as many arguments, a field or a property is the first one of the name, to be read or
written, and an event is reached by the method that adds handlers. A member of instances runs for a
target alone. -/
theorem resolved_is_reached {type made : HostType} {ds : List Declaration} {name : String}
    (hd : r.descriptor? type = some (.ofDeclarations made ds))
    (hn : name ≠ TypeDescriptor.constructorName) (receiver : Receiver) (target : Option Value)
    (args : Array Value) :
    let d := TypeDescriptor.ofDeclarations made ds
    let kind := r.resolve type name args.size
    let call : HostCall :=
      ⟨type, calledName kind name, .forAccess kind receiver args.size, target, args⟩
    (∀ returns, kind = .method returns →
      (∃ m, d.firstTaking? name args.size = some m ∧ m.kind = .method returns ∧
        r.Reaches call m m.body) ∨
      d.firstTaking? name args.size = none ∧
        r.invoke call = .fail (.noOverload made.name name args.size)) ∧
    (kind.isData = true → ∃ m, d.firstData? name = some m ∧ m.kind = kind ∧
      (args.size = 0 → r.Reaches call m m.body) ∧
      (args.size = 1 → ∀ body, m.setter = some body → r.Reaches call m body) ∧
      (args.size = 1 → m.setter = none →
        r.invoke call = .fail (.missingMember type.name ("set_" ++ name)))) ∧
    (kind = .event → args.size = 1 →
      (d.members.toList.filter (·.name == accessorName name)).length ≤ 1 →
      ∃ e ∈ d.members, e.name = name ∧ e.kind = .event ∧
        ∃ a, TypeDescriptor.Adds a e ∧ r.Reaches call a e.body) ∧
    (kind ≠ .missing → ∀ owner, bodyOf d call ≠ .error (.missingMember owner call.member)) := by
  intro d kind call
  have hmade : d.Declared := TypeDescriptor.declared_ofDeclarations made ds
  have hresolve : d.resolve name args.size = kind := (resolve_of_descriptor hd hn).symm
  have hflags : call.flags = .forAccess kind receiver call.args.size := rfl
  refine ⟨fun returns hk => ?_, fun hk => ?_, fun hk hone hlone => ?_, fun hk owner => ?_⟩
  · have hname : call.member = name := if_neg (by rw [hk]; simp)
    have htype : d.type = made := TypeDescriptor.type_ofDeclarations made ds
    rw [← hname] at hresolve
    rw [hk] at hresolve hflags
    have hreached := method_reached hd hresolve hflags
    rwa [hname, htype] at hreached
  · have hname : call.member = name := if_neg fun he => by
      rw [he] at hk
      cases hk
    rw [← hname] at hresolve
    have hreached := data_reached hd hmade hk hresolve hflags
    rwa [hname] at hreached
  · obtain ⟨e, he, hename, hek⟩ := TypeDescriptor.exists_of_resolve hresolve (by simp [hk])
    have hname : call.member = accessorName e.name := by
      rw [hename]
      exact if_pos hk
    rw [← hename] at hlone
    rw [hk] at hflags
    exact ⟨e, he, hename, hek.trans hk,
      event_reached hd hmade he (hek.trans hk) hname hone hlone hflags⟩
  · exact bodyOf_ne_missing hmade hn hresolve hk rfl hflags

/-- A type on which one name means a method for one argument, and a property otherwise. -/
def lamp : TypeDescriptor :=
  .ofDeclarations ⟨"demo", "Demo", "Lamp"⟩
    [.method "Glow" .ofInstance (some 1) fun _ => .done (some (.boolean false)),
      .property "Glow" .ofInstance fun _ => .done (some (.boolean true))]

def withLamp : Registry := ofModules [⟨"demo", #[lamp]⟩]

theorem resolved_is_reached_of_lamp :
    withLamp.descriptor? lamp.type = some lamp ∧ "Glow" ≠ TypeDescriptor.constructorName ∧
    withLamp.resolve lamp.type "Glow" 0 = .property ∧
    ∃ m, lamp.firstData? "Glow" = some m ∧ m.kind = .property ∧
      withLamp.Reaches ⟨lamp.type, "Glow", .forAccess .property .ofInstance 0,
        some (.integer 5), #[]⟩ m m.body := by
  have hd : withLamp.descriptor? lamp.type = some lamp := rfl
  have hn : "Glow" ≠ TypeDescriptor.constructorName := by decide
  have hk : withLamp.resolve lamp.type "Glow" 0 = .property := by decide
  obtain ⟨-, hdata, -⟩ := resolved_is_reached hd hn .ofInstance (some (.integer 5)) #[]
  obtain ⟨m, hm, hmk, hread, -⟩ := hdata (by decide)
  exact ⟨hd, hn, hk, m, hm, hmk.trans hk, hread rfl⟩

/-- Asked of the type itself, the method that the name means does not run. -/
theorem target_lacking :
    withLamp.resolve lamp.type "Glow" 1 = .method true ∧
    ∃ m, lamp.firstTaking? "Glow" 1 = some m ∧ m.kind = .method true ∧
      let call : HostCall :=
        ⟨lamp.type, "Glow", .forAccess (.method true) .ofType 1, none, #[.integer 5]⟩
      withLamp.invoke call ≠ m.body ⟨call.target, call.args⟩ ∧
        withLamp.invoke call = .fail (.missingTarget "Glow") := by
  refine ⟨by decide, _, rfl, rfl, ?_, rfl⟩
  intro h
  cases h

end Registry

end WordStack
