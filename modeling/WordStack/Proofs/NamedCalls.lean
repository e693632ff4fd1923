import WordStack.Proofs.MemberAccess
import WordStack.Proofs.SpreadLists

/-!
# Calls by name and by flags

A member is called by its name, and `execute` finds out what the name means, or everything about the
call is spelled out for `invoke`: the module, the type, and flags for how the member is reached.
Where a member gives a value, both come to the same host call. `execute` has walked its arguments
before, so what is told is how a run goes on from there (`Completes.arguments_first`): two steps
later the machine is the one to which `invoke` leads (`execute_invoke_alike`).
-/

namespace WordStack

/-! ## Flags as numbers -/

/-- The number that stands for flags on the stack. -/
def AccessFlags.value (f : AccessFlags) : Value := .integer (Int64.ofNat f.bits.toNat)

/-- The host's type of flags has a field with that number for each flag. -/
theorem bindingFlags_members : CoreModule.bindingFlags.members.toList =
    AccessFlags.named.map fun p =>
      ⟨p.1, .field, .ofType, some 0, false, fun _ => .done (some p.2.value), none⟩ := rfl

/-- The flag that says whether there is a target. -/
def Receiver.flag : Receiver → AccessFlags
  | ofType => .ofType
  | ofInstance => .ofInstance

/-- Every flag has a meaning, so none is dropped where it is taken off the stack. -/
theorem Receiver.ofBits_flag (receiver : Receiver) :
    AccessFlags.ofBits receiver.flag.bits = receiver.flag := by
  cases receiver <;> rfl

/-- A target, if there is one, receives the call, else the type. -/
def Receiver.ofTarget (target : Option Value) : Receiver :=
  if target.isSome then ofInstance else ofType

namespace MemberKind

/-- The flag by which a member of the kind is called or read. -/
def readFlag : MemberKind → AccessFlags
  | field => .getField
  | property => .getProperty
  | _ => .invokeMethod

theorem readFlag_cases (kind : MemberKind) : kind.readFlag = .invokeMethod ∨
    kind.readFlag = .getField ∨ kind.readFlag = .getProperty := by
  cases kind <;> simp [readFlag]

theorem ofBits_readFlag (kind : MemberKind) :
    AccessFlags.ofBits kind.readFlag.bits = kind.readFlag := by
  rcases kind.readFlag_cases with h | h | h <;> rw [h] <;> rfl

/-- A member of the kind gives a value for so many arguments. -/
def Gives (count : Nat) : MemberKind → Prop
  | method returns => returns = true
  | field | property => count = 0
  | _ => False

end MemberKind

namespace AccessFlags

variable {kind : MemberKind} {count : Nat}

theorem union_comm (a b : AccessFlags) : a.union b = b.union a := by
  rw [union, union, UInt32.or_comm]

/-- The two flags that are spelled out are those that the meaning of the name comes to. -/
theorem union_eq_forAccess (h : kind.Gives count) (receiver : Receiver) :
    (kind.readFlag.union receiver.flag).union isPublic = forAccess kind receiver count := by
  rw [union_comm _ isPublic, union_comm kind.readFlag]
  cases kind with
  | method returns => cases receiver <;> rfl
  | field | property =>
    obtain rfl : count = 0 := h
    cases receiver <;> rfl
  | _ => exact h.elim

/-- A target is taken where the flags ask for one. -/
theorem takesTarget (h : kind.Gives count) (receiver : Receiver) :
    ((forAccess kind receiver count).contains ofInstance &&
      !(forAccess kind receiver count).contains createInstance) =
      decide (receiver = .ofInstance) := by
  rw [← union_eq_forAccess h]
  rcases kind.readFlag_cases with h | h | h <;> rw [h] <;> cases receiver <;> rfl

end AccessFlags

/-! ## The two ways to name a call -/

namespace Registry

/-- The type is found by its own name, and has a member that is no constructor and gives a value for
so many arguments. -/
structure Offers (r : Registry) (type : HostType) (member : String) (count : Nat) : Prop where
  found : r.findType type.module type.name = .ok type
  ordinary : member ≠ TypeDescriptor.constructorName
  gives : (r.resolve type member count).Gives count

/-- The call of a member by what its name means. -/
def callOf (r : Registry) (type : HostType) (member : String) (target : Option Value)
    (args : List Value) : HostCall :=
  ⟨type, member, .forAccess (r.resolve type member args.length) (.ofTarget target) args.length,
    target, args.toArray⟩

/-- The operands that spell the call out: the target, the arguments and their number, the names of
the module, the type and the member, and the flags. -/
inductive Spells (r : Registry) (type : HostType) (member : String) (target : Option Value)
    (args : List Value) : List Value → Prop where
  | operands {n : Int64} {module typeName name : Value} : n.toInt = args.length →
      module.name? = some type.module → typeName.name? = some type.name →
      name.name? = some member →
      Spells r type member target args (target.toList ++ args ++
        [.integer n, module, typeName, name, (Receiver.ofTarget target).flag.value,
          (r.resolve type member args.length).readFlag.value])

theorem Spells.fits {r : Registry} {type : HostType} {member : String} {target : Option Value}
    {args operands : List Value} (h : r.Spells type member target args operands) :
    FitsInt64 args.length := by
  obtain ⟨hn, -, -, -⟩ := h
  rw [← hn]
  exact fitsInt64_toInt _

end Registry

namespace Interp

/-- Below the arguments of `execute`, the subject stands for the type itself, or for a value of the
type as the target. -/
inductive Designates (i : Interp) (type : HostType) : Value → Option Value → Prop where
  | type : type ≠ reflectionType → Designates i type (.hostType type) none
  | target {v : Value} : Registry.typeOf v = type → (∀ b, v ≠ .boolean b) →
      (∀ t, v ≠ .hostType t) → isReflection i.store v = false → Designates i type v (some v)

variable {i : Interp} {rest args operands : List Value} {subject : Value} {type : HostType}
  {member : String} {target : Option Value}

theorem get_withStack : (get : Eval Interp) (i.withStack rest) =
    (.ok (i.withStack rest), i.withStack rest) := rfl

/-- A call whose member gives a value, with the result pushed. -/
theorem memberCall_withStack (h : i.setting.registry.Offers type member args.length) :
    memberCall type target member args.toArray (i.withStack rest) =
      (.ok (i.setting.registry.callOf type member target args, true), i.withStack rest) := by
  have hgives := h.gives
  have hreg : (i.withStack rest).setting.registry = i.setting.registry := rfl
  rw [memberCall, bind_of_ok get_withStack]
  simp only [if_neg h.ordinary, hreg, List.size_toArray]
  rw [Registry.callOf]
  generalize i.setting.registry.resolve type member args.length = kind at hgives ⊢
  cases kind with
  | method returns =>
    obtain rfl : returns = true := hgives
    rfl
  | field | property =>
    have hempty : args.toArray.isEmpty = true := by
      rw [List.isEmpty_toArray, List.isEmpty_iff]
      exact List.eq_nil_of_length_eq_zero hgives
    simp only [hempty]
    rfl
  | _ => exact hgives.elim

theorem popSubject_withStack (h : ∀ b, subject ≠ .boolean b) :
    popSubject (i.withStack (rest ++ [subject])) = (.ok (subject, false), i.withStack rest) := by
  rw [popSubject, bind_of_ok pop_withStack_append]
  cases subject with
  | boolean b => exact absurd rfl (h b)
  | _ => rfl

theorem executeOn_withStack (h : i.setting.registry.Offers type member args.length)
    (hsubject : i.Designates type subject target) :
    executeOn member args.toArray (i.withStack (rest ++ [subject])) =
      (.ok (.call (i.setting.registry.callOf type member target args) true), i.withStack rest) := by
  have hcall (target : Option Value) :
      memberCall type target member args.toArray (i.withStack rest) =
        (.ok (i.setting.registry.callOf type member target args, true), i.withStack rest) :=
    memberCall_withStack h
  cases hsubject with
  | type hne =>
    have hreflection : isReflection (i.withStack rest).store (.hostType type) = false := by
      simpa [isReflection] using hne
    rw [executeOn, bind_of_ok (popSubject_withStack (by simp))]
    dsimp only
    rw [bind_of_ok get_withStack, hreflection]
    exact bind_of_ok (hcall _) _
  | target htype hboolean hhandle hreflection =>
    subst htype
    have hplain : isReflection (i.withStack rest).store subject = false := hreflection
    rw [executeOn, bind_of_ok (popSubject_withStack hboolean)]
    dsimp only
    rw [bind_of_ok get_withStack, hplain]
    cases subject with
    | hostType t => exact absurd rfl (hhandle t)
    | _ => exact bind_of_ok (hcall _) _

theorem popFlags_withStack {f : AccessFlags} (h : AccessFlags.ofBits f.bits = f) :
    popFlags (i.withStack (rest ++ [f.value])) = (.ok f, i.withStack rest) := by
  have hpop : popping OperandStack.popInteger (i.withStack (rest ++ [f.value])) =
      (.ok (Int64.ofNat f.bits.toNat), i.withStack rest) := popAs_withStack rfl
  have hlt : f.bits.toNat < UInt32.size := f.bits.toNat_lt
  have hn : (Int64.ofNat f.bits.toNat).toInt = f.bits.toNat :=
    Int64.toInt_ofNat_of_lt (hlt.trans (by decide))
  rw [popFlags, bind_of_ok hpop, hn, if_pos ⟨by omega, by omega⟩, Int.toNat_natCast,
    UInt32.ofNat_toNat, h]
  rfl

/-- Call a member by flags with the arguments that have been taken for it. -/
def invokeOn (flags : AccessFlags) (member typeName module : String) (args : Array Value) :
    Eval Next := do
  let target ←
    if flags.contains .ofInstance && !flags.contains .createInstance then some <$> pop
    else pure none
  let i ← get
  let type ← hostResult (i.store.callText typeName member args)
    (i.setting.registry.findType module typeName)
  pure (.call ⟨type, member, flags, target, args⟩ true)

theorem invoke_eq : invoke = (do
    let kind ← popFlags
    let binding ← popFlags
    let member ← popping OperandStack.popName
    let typeName ← popping OperandStack.popName
    let module ← popping OperandStack.popName
    let count ← popping OperandStack.popCount
    let args ← popping fun _ => OperandStack.popMany count
    invokeOn ((kind.union binding).union .isPublic) member typeName module args) := rfl

theorem invokeOn_withStack (h : i.setting.registry.Offers type member args.length) :
    let call := i.setting.registry.callOf type member target args
    invokeOn call.flags member type.name type.module args.toArray
      (i.withStack (rest ++ target.toList)) = (.ok (.call call true), i.withStack rest) := by
  intro call
  have htakes := AccessFlags.takesTarget h.gives (.ofTarget target)
  have hfound (text : String) : hostResult text
      ((i.withStack rest).setting.registry.findType type.module type.name) (i.withStack rest) =
        (.ok type, i.withStack rest) := by
    have hregistry : (i.withStack rest).setting.registry = i.setting.registry := rfl
    rw [hregistry, h.found]
    rfl
  simp only [invokeOn, call, Registry.callOf, htakes]
  cases target with
  | none =>
    have hnone : (pure none : Eval (Option Value)) (i.withStack (rest ++ [])) =
        (.ok none, i.withStack rest) := by
      rw [List.append_nil]
      rfl
    rw [if_neg (by decide)]
    refine (bind_of_ok hnone _).trans ?_
    rw [bind_of_ok get_withStack]
    exact bind_of_ok (hfound _) _
  | some v =>
    have hsome : (some <$> pop : Eval (Option Value)) (i.withStack (rest ++ [v])) =
        (.ok (some v), i.withStack rest) := by
      rw [map_eq_pure_bind, bind_of_ok pop_withStack_append]
      rfl
    rw [if_pos (by simp [Receiver.ofTarget])]
    refine (bind_of_ok hsome _).trans ?_
    rw [bind_of_ok get_withStack]
    exact bind_of_ok (hfound _) _

/-- What is spelled out is the call that the name means. -/
theorem invoke_withStack (h : i.setting.registry.Offers type member args.length)
    (hspells : i.setting.registry.Spells type member target args operands) :
    invoke (i.withStack (rest ++ operands)) =
      (.ok (.call (i.setting.registry.callOf type member target args) true), i.withStack rest) := by
  obtain @⟨n, module, typeName, name, hn, hmodule, htype, hname⟩ := hspells
  let below := rest ++ target.toList
  let binding := (Receiver.ofTarget target).flag
  let kind := (i.setting.registry.resolve type member args.length).readFlag
  have hflags {f : AccessFlags} (hf : AccessFlags.ofBits f.bits = f) (us : List Value) :
      popFlags (i.withStack (us ++ [f.value])) = (.ok f, i.withStack us) := popFlags_withStack hf
  have hnames {v : Value} {text : String} (hv : v.name? = some text) (us : List Value) :
      popping OperandStack.popName (i.withStack (us ++ [v])) = (.ok text, i.withStack us) :=
    popAs_withStack hv
  have hstack : rest ++ (target.toList ++ args ++
      [.integer n, module, typeName, name, binding.value, kind.value]) =
      below ++ args ++ [.integer n] ++ [module] ++ [typeName] ++ [name] ++
        [binding.value] ++ [kind.value] := by
    simp [below]
  have hunion : (kind.union binding).union .isPublic =
      (i.setting.registry.callOf type member target args).flags :=
    AccessFlags.union_eq_forAccess h.gives _
  rw [hstack, invoke_eq, bind_of_ok (hflags (MemberKind.ofBits_readFlag _) _),
    bind_of_ok (hflags (Receiver.ofBits_flag _) _), bind_of_ok (hnames hname _),
    bind_of_ok (hnames htype _), bind_of_ok (hnames hmodule _), bind_of_ok (popCount_withStack hn),
    bind_of_ok popMany_withStack, hunion]
  exact invokeOn_withStack h

end Interp

namespace Machine

variable {m m' : Machine} {base : List Task} {below rest args operands : List Value}
  {l : ListId} {subject name : Value} {member : String} {xs : List Move}

/-! ## The walk of the arguments -/

/-- The machine that is about to walk the arguments of a member, above the operands that stay. -/
def beforeArguments (m : Machine) (below : List Value) (member : String) : Machine :=
  { m with
    interp := m.interp.withStack below,
    tasks := .countAbove below.length :: .execute member :: m.tasks }

theorem enter_append (items : ListId) (after : List Task) :
    m.enter items after = { m with tasks := after ++ m.tasks }.enter items [] := by
  unfold enter
  dsimp only
  split <;> rfl

theorem act_execute (hm : m.interp.stack.values.toList = below ++ [.list l, name])
    (hname : name.name? = some member) :
    m.act Interp.execute =
      (m.beforeArguments below member).act (Interp.walkValue (.list l) []) := by
  have hself : m.interp.withStack (below ++ [.list l, name]) = m.interp := by
    rw [← hm, withStack_self]
  have hexecute : Interp.execute m.interp = _ :=
    (congrArg Interp.execute hself.symm).trans (Interp.execute_withStack hname)
  rw [Interp.evaluateAndSplit_withStack] at hexecute
  rw [act_of_ok hexecute, follow, enter_append]
  rfl

/-- What is a run down to some tasks above the base is one that has not come to the base. -/
theorem Run.lower {ts : List Task} (mid : List Task) (h : Run (mid ++ base) m xs m')
    (ht : m.tasks = ts ++ (mid ++ base)) (hmid : mid ≠ []) :
    Run base m xs m' ∧ ∃ ts', m'.tasks = ts' ++ (mid ++ base) := by
  induction h with
  | refl => exact ⟨.refl m, ts, ht⟩
  | snoc x _ hn ih =>
    obtain ⟨hrun, ts', ht'⟩ := ih
    obtain ⟨ts'', ht'', -⟩ := move_change x ht' hn
    have hpos := List.length_pos_iff.2 hmid
    have hmore : base.length < (ts' ++ (mid ++ base)).length := by
      simp only [List.length_append]
      omega
    exact ⟨.snoc x hrun (not_returned_of_lt (ht' ▸ hmore)), ts'', ht''⟩

/-- A call by name walks its arguments first, and then it is over with them. -/
theorem Completes.arguments_first {r : Except EvalError Unit}
    (h : m.Completes Interp.execute xs r m')
    (hm : m.interp.stack.values.toList = below ++ [.list l, name])
    (hname : name.name? = some member) :
    ∃ us ws n r₁, xs = us ++ ws ∧
      (m.beforeArguments below member).Evaluates (.list l) us r₁ n ∧ Run m.tasks n ws m' := by
  obtain ⟨above, habove⟩ := (m.beforeArguments below member).enter_tasks l []
  have hact := act_execute hm hname
  have htasks : (m.act Interp.execute).tasks =
      above ++ ([.countAbove below.length, .execute member] ++ m.tasks) := by
    rw [hact]
    exact habove
  obtain ⟨us, ws, n, r₁, rfl, hus, hr₁, hws⟩ :=
    h.run.returns [.countAbove below.length, .execute member] h.returned htasks (by simp)
  rw [hact] at hus
  exact ⟨us, ws, n, r₁, rfl, ⟨h.ready, hus, hr₁⟩, hws⟩

section Walked

variable {us : List Move} {n : Machine} {r : Except EvalError Unit}
  (h : (m.beforeArguments below member).Evaluates (.list l) us r n)

include h

/-- A walk of the arguments is the beginning of a run of the call. -/
theorem run_of_arguments (hm : m.interp.stack.values.toList = below ++ [.list l, name])
    (hname : name.name? = some member) : Run m.tasks (m.act Interp.execute) us n := by
  obtain ⟨above, habove⟩ := (m.beforeArguments below member).enter_tasks l []
  obtain ⟨hrun, -⟩ :=
    h.run.lower [.countAbove below.length, .execute member] habove (by simp)
  rwa [act_execute hm hname]

/-- The arguments can be any program, but no program changes the setting. -/
theorem setting_of_arguments : n.interp.setting = m.interp.setting :=
  (((m.beforeArguments below member).enter_persists l []).trans h.run.persists).setting

end Walked

/-! ## The call after the walk -/

/-- The machine goes on with these tasks above the base, from the state with these operands. -/
structure Poised (base ts : List Task) (i : Interp) (vs : List Value) (m : Machine) : Prop where
  status : m.status = .proceeding
  tasks : m.tasks = ts ++ base
  interp : m.interp = i.withStack vs

variable {t : Task} {ts : List Task} {i : Interp} {vs : List Value} {r : Except EvalError Unit}

theorem Poised.pending (h : Poised base (t :: ts) i vs m) (r : Except EvalError Unit) :
    ¬ m.Returned base r := by
  refine not_returned_of_lt ?_ r
  rw [h.tasks, List.length_append, List.length_cons]
  omega

theorem Poised.step_eq (h : Poised base (t :: ts) i vs m) :
    m.step = { m with tasks := ts ++ base }.perform t :=
  step_of_proceeding h.status h.tasks

/-- In a run that returns, a machine with something to do takes a step at some time, and until then
nothing becomes of its tasks and its state. -/
theorem Run.next_step (h : Run base m xs m') (hm : Poised base (t :: ts) i vs m)
    (hr : m'.Returned base r) : ∃ (ys zs : List Move) (k : Machine), xs = ys ++ .step :: zs ∧
      Run base m ys k ∧ Poised base (t :: ts) i vs k ∧ Run base k.step zs m' := by
  induction xs generalizing m with
  | nil =>
    obtain rfl : m' = m := h.eq_foldl
    exact absurd hr (hm.pending r)
  | cons x xs ih =>
    have hrow : Run base m ([x] ++ xs) m' := h
    obtain ⟨hfirst, hrest⟩ := hrow.split
    rw [List.foldl_cons, List.foldl_nil] at hfirst hrest
    by_cases hx : x = .step
    · subst hx
      exact ⟨[], xs, m, rfl, .refl m, hm, hrest⟩
    · obtain ⟨htasks, hstatus, hinterp⟩ :=
        m.move_of_not_waiting (by simp [hm.status, Status.phase]) hx
      have hbeside : Poised base (t :: ts) i vs (m.move x) :=
        ⟨hstatus.trans hm.status, htasks.trans hm.tasks, hinterp.trans hm.interp⟩
      obtain ⟨ys, zs, k, rfl, hys, hk, hzs⟩ := ih hrest hbeside
      exact ⟨x :: ys, zs, k, rfl, hfirst.trans hys, hk, hzs⟩

/-- The machine with a host call begun, above these operands, whose result is to be pushed. -/
def calling (m : Machine) (base : List Task) (i : Interp) (rest : List Value) (call : HostCall) :
    Machine :=
  { m with tasks := base, interp := i.withStack rest }.marshal call true

variable {type : HostType} {target : Option Value}

theorem act_invoke (hm : m.interp = i.withStack (rest ++ operands))
    (hoffers : i.setting.registry.Offers type member args.length)
    (hspells : i.setting.registry.Spells type member target args operands) :
    m.act Interp.invoke =
      m.calling m.tasks i rest (i.setting.registry.callOf type member target args) := by
  have hword : Interp.invoke m.interp = _ :=
    (congrArg _ hm).trans (Interp.invoke_withStack hoffers hspells)
  rw [act_of_ok hword]
  rfl

/-- After the walk of the arguments, they are counted. -/
theorem Poised.step_countAbove
    (h : Poised base (.countAbove below.length :: ts) i (below ++ args) m) :
    m.step = { m with
      tasks := ts ++ base,
      interp := i.withStack (below ++ args ++ [.integer (Int64.ofInt args.length)]) } := by
  have hword : Interp.countAbove below.length m.interp = _ :=
    (congrArg _ h.interp).trans Interp.countAbove_withStack
  rw [h.step_eq, perform, act_of_ok (m := { m with tasks := ts ++ base }) hword]
  rfl

theorem Poised.counted (h : Poised base (.countAbove below.length :: ts) i (below ++ args) m) :
    Poised base ts i (below ++ args ++ [.integer (Int64.ofInt args.length)]) m.step := by
  rw [h.step_countAbove]
  exact ⟨h.status, rfl, rfl⟩

/-- Then the member is called. -/
theorem Poised.step_execute (h : Poised base [.execute member] i
      (rest ++ [subject] ++ args ++ [.integer (Int64.ofInt args.length)]) m)
    (hsize : FitsInt64 args.length)
    (hoffers : i.setting.registry.Offers type member args.length)
    (hsubject : i.Designates type subject target) :
    m.step = m.calling base i rest (i.setting.registry.callOf type member target args) := by
  have hword : Interp.executeCounted member m.interp = _ :=
    (congrArg _ h.interp).trans (Interp.executeCounted_withStack (toInt_ofInt hsize))
  rw [Interp.executeOn_withStack hoffers hsubject] at hword
  rw [h.step_eq, perform, act_of_ok (m := { m with tasks := [] ++ base }) hword]
  rfl

section Call

variable (hsize : FitsInt64 args.length)
  (hoffers : i.setting.registry.Offers type member args.length)
  (hsubject : i.Designates type subject target)

include hsize hoffers hsubject

/-- Two steps lead from the walk of the arguments to the call. -/
theorem Poised.calls
    (h : Poised base [.countAbove (rest ++ [subject]).length, .execute member] i
      (rest ++ [subject] ++ args) m) :
    Run base m [.step, .step]
      (m.calling base i rest (i.setting.registry.callOf type member target args)) := by
  have hfirst : Run base m [.step] m.step := .snoc .step (.refl m) h.pending
  have hrun : Run base m [.step, .step] m.step.step := .snoc .step hfirst h.counted.pending
  rw [h.counted.step_execute hsize hoffers hsubject, h.step_countAbove] at hrun
  exact hrun

/-- A run that returns goes from the walk of the arguments to the call, and on from there. -/
theorem Run.comes_to_call (hrun : Run base m xs m') (hr : m'.Returned base r)
    (h : Poised base [.countAbove (rest ++ [subject]).length, .execute member] i
      (rest ++ [subject] ++ args) m) :
    ∃ (ys zs : List Move) (k : Machine), xs = ys ++ zs ∧ k.status = .proceeding ∧
      let called := k.calling base i rest (i.setting.registry.callOf type member target args)
      Run base m ys called ∧ Run base called zs m' := by
  obtain ⟨ys, xs', k, rfl, hys, hk, hxs'⟩ := hrun.next_step h hr
  obtain ⟨zs, ws, n, rfl, hzs, hn, hws⟩ := hxs'.next_step hk.counted hr
  have hcall := hn.step_execute hsize hoffers hsubject
  refine ⟨ys ++ [.step] ++ zs ++ [.step], ws, n, by simp, hn.status, ?_, hcall ▸ hws⟩
  rw [← hcall]
  have hcounted : Run base m (ys ++ [.step]) k.step := .snoc .step hys hk.pending
  exact .snoc .step (hcounted.trans hzs) hn.pending

end Call

/-- The two ways to name a call come to the same. A run of `execute` walks the arguments first.
Where that leaves them above the subject, `invoke` begins the same host call with the operands that
spell it out: from there on, what one completes the other completes too, and every run that
`execute` completes goes through the call. -/
theorem execute_invoke_alike
    (hm : m.interp.stack.values.toList = rest ++ [subject, .list l, name])
    (hname : name.name? = some member) :
    let walk := m.beforeArguments (rest ++ [subject]) member
    let registry := m.interp.setting.registry
    (∀ xs r m', m.Completes Interp.execute xs r m' → ∃ us ws n r₁, xs = us ++ ws ∧
      walk.Evaluates (.list l) us r₁ n ∧ Run m.tasks n ws m') ∧
    ∀ us n args type target operands, walk.Evaluates (.list l) us (.ok ()) n →
      n.interp.stack.values.toList = rest ++ [subject] ++ args →
      registry.Offers type member args.length → n.interp.Designates type subject target →
      registry.Spells type member target args operands →
        let called (k : Machine) : Machine :=
          k.calling m.tasks n.interp rest (registry.callOf type member target args)
        let spelled (k : Machine) : Machine :=
          { k with tasks := m.tasks, interp := n.interp.withStack (rest ++ operands) }
        (∀ k, (spelled k).act Interp.invoke = called k) ∧
        Run m.tasks (m.act Interp.execute) (us ++ [.step, .step]) (called n) ∧
        (∀ xs r m', (spelled n).Completes Interp.invoke xs r m' →
          m.Completes Interp.execute (us ++ [.step, .step] ++ xs) r m') ∧
        ∀ xs r m', m.Completes Interp.execute (us ++ xs) r m' → ∃ ys zs k, xs = ys ++ zs ∧
          Run m.tasks (m.act Interp.execute) (us ++ ys) (called k) ∧
          (spelled k).Completes Interp.invoke zs r m' := by
  intro walk registry
  have hbelow : m.interp.stack.values.toList = rest ++ [subject] ++ [.list l, name] := by
    simpa using hm
  refine ⟨fun xs r m' h => h.arguments_first hbelow hname, ?_⟩
  intro us n args type target operands hargs hn hoffers hsubject hspells called spelled
  have hregistry : n.interp.setting.registry = registry :=
    congrArg Setting.registry (setting_of_arguments hargs)
  rw [← hregistry] at hoffers hspells
  have hready : m.status = .proceeding := hargs.ready
  have hfirst := run_of_arguments hargs hbelow hname
  have hpoised : Poised m.tasks [.countAbove (rest ++ [subject]).length, .execute member] n.interp
      (rest ++ [subject] ++ args) n :=
    ⟨hargs.returned.2, hargs.returned.1, by rw [← hn, withStack_self]⟩
  have hinvoke (k : Machine) : (spelled k).act Interp.invoke = called k := by
    rw [act_invoke rfl hoffers hspells, hregistry]
    rfl
  have hcall : Run m.tasks (m.act Interp.execute) (us ++ [.step, .step]) (called n) := by
    have hcalls := hpoised.calls hspells.fits hoffers hsubject
    rw [hregistry] at hcalls
    exact hfirst.trans hcalls
  refine ⟨hinvoke, hcall, fun xs r m' h => ⟨hready, ?_, h.returned⟩, fun xs r m' h => ?_⟩
  · have hrun : Run m.tasks ((spelled n).act Interp.invoke) xs m' := h.run
    rw [hinvoke] at hrun
    exact hcall.trans hrun
  · obtain ⟨-, hrest⟩ := h.run.split
    rw [← hfirst.eq_foldl] at hrest
    obtain ⟨ys, zs, k, rfl, hk, hys, hzs⟩ :=
      hrest.comes_to_call hspells.fits hoffers hsubject h.returned hpoised
    rw [hregistry] at hys hzs
    refine ⟨ys, zs, k, rfl, hfirst.trans hys, hk, ?_, h.returned⟩
    rw [hinvoke]
    exact hzs

/-- A machine that is to find the greater of two numbers, above an operand that stays. -/
def comparing : Machine :=
  let i := Interp.blank {} (Store.addList {} #[.integer 3, .integer 9])
  .ofInterp (i.withStack [.text "a", .hostType (.core "Math"), .list ⟨0⟩, .text "Max"]) .inline

theorem comparing_walks : ∃ us n,
    (comparing.beforeArguments [.text "a", .hostType (.core "Math")] "Max").Evaluates (.list ⟨0⟩)
      us (.ok ()) n ∧
    n.interp.stack.values.toList =
      [.text "a", .hostType (.core "Math"), .integer 3, .integer 9] := by
  refine ⟨[.step, .step, .step, .step, .step], _, ⟨rfl, .snoc .step (.snoc .step (.snoc .step
    (.snoc .step (.snoc .step (.refl _) (not_returned_of_lt ?_)) (not_returned_of_lt ?_))
    (not_returned_of_lt ?_)) (not_returned_of_lt ?_)) (not_returned_of_lt ?_), rfl, rfl⟩, rfl⟩
  all_goals decide

/-- The numbers are walked, and where they are spelled out with the rest, the same call is begun. It
finds the greater one. -/
theorem execute_invoke_alike_of_greater :
    let math := HostType.core "Math"
    let registry := comparing.interp.setting.registry
    let args : List Value := [.integer 3, .integer 9]
    let operands := args ++ [.integer 2, .text "core", .text "Math", .text "Max",
      AccessFlags.ofType.value, AccessFlags.invokeMethod.value]
    let call : HostCall :=
      ⟨math, "Max", .forAccess (.method true) .ofType 2, none, #[.integer 3, .integer 9]⟩
    ∃ us n, (comparing.beforeArguments [.text "a", .hostType math] "Max").Evaluates (.list ⟨0⟩) us
        (.ok ()) n ∧
      n.interp.stack.values.toList = [.text "a", .hostType math] ++ args ∧
      registry.Offers math "Max" 2 ∧ n.interp.Designates math (.hostType math) none ∧
      registry.Spells math "Max" none args operands ∧
      Run [] (comparing.act Interp.execute) (us ++ [.step, .step])
        (n.calling [] n.interp [.text "a"] call) ∧
      { n with tasks := [], interp := n.interp.withStack (.text "a" :: operands) }.act
        Interp.invoke = n.calling [] n.interp [.text "a"] call ∧
      registry.invoke call = .done (some (.integer 9)) := by
  intro math registry args operands call
  obtain ⟨us, n, hargs, hstack⟩ := comparing_walks
  have hoffers : registry.Offers math "Max" 2 := ⟨rfl, by decide, rfl⟩
  have hsubject : n.interp.Designates math (.hostType math) none := .type (by decide)
  have hspells : registry.Spells math "Max" none args operands := .operands (by decide) rfl rfl rfl
  have hoperands : comparing.interp.stack.values.toList =
      [.text "a"] ++ [.hostType math, .list ⟨0⟩, .text "Max"] := rfl
  obtain ⟨-, halike⟩ := execute_invoke_alike hoperands rfl
  obtain ⟨hinvoke, hrun, -⟩ :=
    halike us n args math none operands hargs hstack hoffers hsubject hspells
  have hcall : comparing.interp.setting.registry.invoke ⟨.core "Math", "Max",
      .forAccess (.method true) .ofType 2, none, #[.integer 3, .integer 9]⟩ =
        .done (some (.integer 9)) := rfl
  exact ⟨us, n, hargs, hstack, hoffers, hsubject, hspells, hrun, hinvoke n, hcall⟩

end Machine

end WordStack
