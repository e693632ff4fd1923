import WordStack.Proofs.MemberAccess

/-!
# Members of the host on their own

What `HostProgram.runWith` does with each of the pieces that members are made of. A program that
goes on with another one runs it in the store and the state that it leaves (`runWith_bind`); a
callback is answered by the context, and its failure ends the program. To look at an argument or at
the target changes nothing, whether it is of the right kind or not. And a call runs the member that
its flags look for (`Registry.invoke_of_sought`).
-/

namespace WordStack

namespace HostProgram

variable {α β σ : Type} (ctx : CallbackContext σ) (s : Store) (x : σ)

@[simp] theorem runWith_pure (a : α) :
    (pure a : HostProgram α).runWith ctx s x = (.ok a, s, x) := rfl

@[simp] theorem runWith_done (a : α) : (done a).runWith ctx s x = (.ok a, s, x) := rfl

@[simp] theorem runWith_fail (e : HostError) :
    (fail e : HostProgram α).runWith ctx s x = (.error e, s, x) := rfl

theorem runWith_bind (p : HostProgram α) (f : α → HostProgram β) :
    (p >>= f).runWith ctx s x =
      match p.runWith ctx s x with
      | (.ok a, s', x') => (f a).runWith ctx s' x'
      | (.error e, s', x') => (.error e, s', x') := by
  change (p.bind f).runWith ctx s x = _
  induction p generalizing s x with
  | done a => rfl
  | fail e => rfl
  | read k ih => exact ih s s x
  | write g k ih => exact ih (g s) x
  | call c args k ih => exact ih _ _ _
  | invoke c args k ih => exact ih _ _ _

variable {ctx s x} {p : HostProgram α} {s' : Store} {x' : σ}

theorem runWith_bind_of_ok {a : α} (h : p.runWith ctx s x = (.ok a, s', x'))
    (f : α → HostProgram β) : (p >>= f).runWith ctx s x = (f a).runWith ctx s' x' := by
  rw [runWith_bind, h]

theorem runWith_bind_of_error {e : HostError} (h : p.runWith ctx s x = (.error e, s', x'))
    (f : α → HostProgram β) : (p >>= f).runWith ctx s x = (.error e, s', x') := by
  rw [runWith_bind, h]

variable (ctx s x)

@[simp] theorem runWith_map (p : HostProgram α) (f : α → β) :
    (f <$> p).runWith ctx s x = ((p.runWith ctx s x).1.map f, (p.runWith ctx s x).2) := by
  change (p >>= fun a => pure (f a)).runWith ctx s x = _
  rw [runWith_bind]
  rcases p.runWith ctx s x with ⟨_ | a, s', x'⟩ <;> rfl

@[simp] theorem runWith_getStore : getStore.runWith ctx s x = (.ok s, s, x) := rfl

@[simp] theorem runWith_query (f : Store → α) :
    (query f).runWith ctx s x = (.ok (f s), s, x) := rfl

@[simp] theorem runWith_modifyStore (f : Store → Store) :
    (modifyStore f).runWith ctx s x = (.ok (), f s, x) := rfl

@[simp] theorem runWith_newList (values : Array Value) :
    (newList values).runWith ctx s x = (.ok (.list s.nextList), s.addList values, x) := rfl

@[simp] theorem runWith_badArgument (i : Nat) (expected : String) (found : Value) :
    (badArgument i expected found : HostProgram α).runWith ctx s x =
      (.error (.argument i expected (s.describe found)), s, x) := rfl

/-- A callback is answered by the context; what fails there fails here. -/
theorem runWith_callBack (c : Callback) (args : Array Value) :
    (callBack c args).runWith ctx s x =
      ((ctx.call c args s x).1.mapError .eval, (ctx.call c args s x).2) := by
  rcases h : ctx.call c args s x with ⟨_ | _, _, _⟩ <;> simp only [callBack, runWith, h] <;> rfl

end HostProgram

/-! ## Arguments and the target -/

/-- The position that a value names: an integer that is not negative. -/
def Value.position? : Value → Option Nat
  | .integer n => if 0 ≤ n.toInt then some n.toInt.toNat else none
  | _ => none

namespace Invocation

open HostProgram

variable {α σ : Type} {ctx : CallbackContext σ} {s : Store} {x : σ} {inv : Invocation} {i : Nat}
  {v : Value} {a : α} {pick : Value → Option α}

theorem runWith_arg (h : inv.args[i]? = some v) :
    (inv.arg i).runWith ctx s x = (.ok v, s, x) := by
  simp [arg, h]

theorem runWith_argAs_of_some (expected : String) (h : inv.args[i]? = some v)
    (hp : pick v = some a) : (inv.argAs i expected pick).runWith ctx s x = (.ok a, s, x) := by
  simp [argAs, runWith_bind, runWith_arg h, hp]

theorem runWith_argAs_of_none (expected : String) (h : inv.args[i]? = some v)
    (hp : pick v = none) : (inv.argAs i expected pick).runWith ctx s x =
      (.error (.argument i expected (s.describe v)), s, x) := by
  simp [argAs, runWith_bind, runWith_arg h, hp]

theorem runWith_callback {c : Callback} (h : inv.args[i]? = some (.callback c)) :
    (inv.callback i).runWith ctx s x = (.ok c, s, x) :=
  runWith_argAs_of_some "delegate" h rfl

theorem runWith_position_of_some {k : Nat} (h : inv.args[i]? = some v)
    (hk : v.position? = some k) : (inv.position i).runWith ctx s x = (.ok k, s, x) := by
  unfold Value.position? at hk
  split at hk
  · next n =>
    have hn : (inv.integer i).runWith ctx s x = (.ok n, s, x) :=
      runWith_argAs_of_some "Int64" h rfl
    rw [position, runWith_bind_of_ok hn]
    split at hk
    · next hle => simpa [hle] using hk
    · cases hk
  · cases hk

variable (ctx s x) in
theorem runWith_position_of_none (h : inv.args[i]? = some v) (hk : v.position? = none) :
    ∃ e, (inv.position i).runWith ctx s x = (.error e, s, x) := by
  cases v with
  | integer n =>
    have hn : (inv.integer i).runWith ctx s x = (.ok n, s, x) :=
      runWith_argAs_of_some "Int64" h rfl
    have hneg : ¬ 0 ≤ n.toInt := by simpa [Value.position?] using hk
    rw [position, runWith_bind_of_ok hn, if_neg hneg]
    exact ⟨_, rfl⟩
  | _ => exact ⟨_, runWith_bind_of_error (runWith_argAs_of_none "Int64" h rfl) _⟩

theorem runWith_this (h : inv.target = some v) : inv.this.runWith ctx s x = (.ok v, s, x) := by
  simp [this, h]

theorem runWith_thisAs_of_some (expected : String) (h : inv.target.bind pick = some a) :
    (inv.thisAs expected pick).runWith ctx s x = (.ok a, s, x) := by
  obtain ⟨v, hv, hp⟩ := Option.bind_eq_some_iff.1 h
  simp [thisAs, runWith_bind, runWith_this hv, hp]

variable (ctx s x) in
theorem runWith_thisAs_of_none (expected : String) (h : inv.target.bind pick = none) :
    ∃ e, (inv.thisAs expected pick).runWith ctx s x = (.error e, s, x) := by
  cases hv : inv.target with
  | none =>
    refine ⟨.missingTarget "this", ?_⟩
    simp [thisAs, this, runWith_bind, hv]
  | some v =>
    rw [hv, Option.bind_some] at h
    refine ⟨.argument 0 expected (s.describe v), ?_⟩
    simp [thisAs, runWith_bind, runWith_this hv, h]

theorem runWith_thisObject {pick : Payload → Option α} {o : HostObject} (expected : String)
    (h : inv.target = some (.object o)) (hp : (s.payload o).bind pick = some a) :
    (inv.thisObject expected pick).runWith ctx s x = (.ok (o, a), s, x) := by
  simp [thisObject, runWith_bind, runWith_this h, hp]

end Invocation

/-! ## The member that is called -/

/-- The flags look for a member to be read, or for a method. -/
structure AccessFlags.Seeks (flags : AccessFlags) (data : Bool) : Prop where
  creates : flags.contains .createInstance = false
  reads : flags.intersects (.union .getField .getProperty) = data
  writes : data = false → flags.intersects (.union .setField .setProperty) = false

/-- The flags with which a program calls a method look for one. -/
theorem AccessFlags.seeks_forAccess_method (returns : Bool) (receiver : Receiver) (count : Nat) :
    (forAccess (.method returns) receiver count).Seeks false := by
  obtain ⟨hcreates, hreads, hwrites⟩ := forAccess_uses (.method returns) receiver count
  exact ⟨hcreates, hreads, fun _ => hwrites⟩

theorem AccessFlags.seeks_forAccess_property (receiver : Receiver) :
    (forAccess .property receiver 0).Seeks true := by
  obtain ⟨hcreates, hreads, -⟩ := forAccess_uses .property receiver 0
  exact ⟨hcreates, hreads, fun h => by cases h⟩

/-- The members among which the flags look. -/
def MemberKind.isSought (data : Bool) (kind : MemberKind) : Bool :=
  if data then kind.isData else kind.isMethod

namespace Registry

variable {r : Registry} {d : TypeDescriptor} {call : HostCall} {data : Bool} {m : Member}

theorem reaches_of_seeks (hd : r.descriptor? call.type = some d) (hf : call.flags.Seeks data)
    (hm : d.select call.member call.args.size (·.kind.isSought data) = .ok m) :
    r.Reaches call m m.body := by
  refine reaches_of_bodyOf hd ?_
  cases data with
  | true =>
    have hs : d.select call.member call.args.size (·.kind.isData) = .ok m := hm
    simp [bodyOf, hf.creates, hf.reads, hs, Except.map]
  | false =>
    have hs : d.select call.member call.args.size (·.kind.isMethod) = .ok m := hm
    simp [bodyOf, hf.creates, hf.reads, hf.writes rfl, hs, Except.map]

/-- A call with a target runs the body of the member that it looks for. -/
theorem invoke_of_sought {v : Value} (hd : r.descriptor? call.type = some d)
    (hf : call.flags.Seeks data)
    (hm : d.select call.member call.args.size (·.kind.isSought data) = .ok m)
    (ht : call.target = some v) : r.invoke call = m.body ⟨some v, call.args⟩ := by
  rw [(reaches_of_seeks hd hf hm).runs fun _ => by rw [ht]; rfl, ht]

end Registry

end WordStack
