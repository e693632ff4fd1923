import WordStack.Host.Core
import WordStack.Proofs.HostRuns

/-!
# Lists as sequences

The members of the core module that read and change a list, against what they say of a sequence:
`ListOperation.result?` puts, replaces and removes elements by cutting the sequence in two, and has
no result where the index is not an integer or lies outside. A member does exactly that to the
elements of its target and to nothing else, and where there is no result it fails and leaves the
store as it was (`list_operations_exact`). So every holder of the list sees the change, no other
list has changed, and what was inserted can be removed again.
-/

namespace WordStack

/-! ## A list with other elements -/

namespace Store

variable {s : Store} {l l' : ListId} {vs vs' : List Value}

/-- The store with other elements in a list, and nothing else changed. -/
def withItems (s : Store) (l : ListId) (vs : List Value) : Store :=
  s.modifyItems l fun _ => vs.toArray

theorem items_withItems (h : s.Live l) : (s.withItems l vs).items l = vs.toArray :=
  items_modifyItems_self h

theorem items_withItems_of_ne (h : l' ≠ l) : (s.withItems l vs).items l' = s.items l' :=
  items_modifyItems_of_ne h

/-- A change of the elements depends on the elements alone. -/
theorem modifyItems_eq {f : Array Value → Array Value} (h : (f (s.items l)).toList = vs) :
    s.modifyItems l f = s.withItems l vs := by
  subst h
  have hlists : s.lists.modify l.index f =
      s.lists.modify l.index fun _ => (f (s.items l)).toList.toArray := by
    refine Array.ext (by simp) fun i hi _ => ?_
    rw [Array.getElem_modify, Array.getElem_modify]
    split
    · next he =>
      subst he
      simp [items, Array.getElem?_eq_getElem (by simpa using hi)]
    · rfl
  simp only [withItems, modifyItems, hlists]

theorem withItems_self : s.withItems l (s.items l).toList = s := by
  have hsame : s.modifyItems l id = s := by
    have hlists : s.lists.modify l.index id = s.lists :=
      Array.ext (by simp) fun i _ _ => by simp [Array.getElem_modify]
    simp only [modifyItems, hlists]
  exact (modifyItems_eq rfl).symm.trans hsame

theorem withItems_withItems : (s.withItems l vs).withItems l vs' = s.withItems l vs' := by
  have hlists : (s.lists.modify l.index fun _ => vs.toArray).modify l.index
      (fun _ => vs'.toArray) = s.lists.modify l.index fun _ => vs'.toArray := by
    refine Array.ext (by simp) fun i _ _ => ?_
    simp only [Array.getElem_modify]
    split <;> rfl
  simp only [withItems, modifyItems, hlists]

theorem insertIdx_eq_append {k : Nat} (h : k ≤ vs.length) (v : Value) :
    vs.insertIdx k v = vs.take k ++ v :: vs.drop k := by
  induction k generalizing vs with
  | zero => simp
  | succ k ih =>
    cases vs with
    | nil => cases h
    | cons w vs => simp [ih (Nat.le_of_succ_le_succ h)]

theorem push_eq (s : Store) (l : ListId) (v : Value) :
    s.push l v = s.withItems l ((s.items l).toList ++ [v]) :=
  modifyItems_eq (by simp)

theorem clear_eq (s : Store) (l : ListId) : s.clear l = s.withItems l [] := modifyItems_eq rfl

theorem setAt_eq {k : Nat} (h : k < (s.items l).size) (v : Value) : s.setAt l k v =
    s.withItems l ((s.items l).toList.take k ++ v :: (s.items l).toList.drop (k + 1)) := by
  refine modifyItems_eq ?_
  rw [Array.toList_setIfInBounds, List.set_eq_take_append_cons_drop, if_pos (by simpa using h)]

theorem insertAt_eq {k : Nat} (h : k ≤ (s.items l).size) (v : Value) : s.insertAt l k v =
    s.withItems l ((s.items l).toList.take k ++ v :: (s.items l).toList.drop k) := by
  refine modifyItems_eq ?_
  rw [Array.insertIdxIfInBounds, dif_pos h, Array.toList_insertIdx,
    insertIdx_eq_append (by simpa using h)]

theorem removeAt_eq {k : Nat} (h : k < (s.items l).size) : s.removeAt l k =
    s.withItems l ((s.items l).toList.take k ++ (s.items l).toList.drop (k + 1)) := by
  refine modifyItems_eq ?_
  rw [Array.eraseIdxIfInBounds, dif_pos h, Array.toList_eraseIdx,
    List.eraseIdx_eq_take_drop_succ]

end Store

/-! ## Operations on sequences -/

/-- The position that a value names, if it lies before the bound. -/
def Value.positionBelow? (bound : Nat) (index : Value) : Option Nat :=
  index.position?.filter (· < bound)

/-- A member of lists with its arguments. -/
inductive ListOperation where
  | count
  | item (index : Value)
  | setItem (index v : Value)
  | add (v : Value)
  | insert (index v : Value)
  | removeAt (index : Value)
  | clear

namespace ListOperation

def name : ListOperation → String
  | count => "Count"
  | item _ | setItem _ _ => "Item"
  | add _ => "Add"
  | insert _ _ => "Insert"
  | removeAt _ => "RemoveAt"
  | clear => "Clear"

def args : ListOperation → Array Value
  | count | clear => #[]
  | item index | removeAt index => #[index]
  | setItem index v | insert index v => #[index, v]
  | add v => #[v]

/-- The operation reads a property, and is no method. -/
def readsProperty : ListOperation → Bool
  | count => true
  | _ => false

/-- The result of the operation and the elements that it leaves, if the index is one of those that
there are; an insertion may also be at the end. -/
def result? : ListOperation → List Value → Option (Option Value × List Value)
  | count, vs => some (some (.integer (Int64.ofInt vs.length)), vs)
  | item index, vs => (index.positionBelow? vs.length).map fun k => (vs[k]?, vs)
  | setItem index v, vs =>
    (index.positionBelow? vs.length).map fun k => (none, vs.take k ++ v :: vs.drop (k + 1))
  | add v, vs => some (none, vs ++ [v])
  | insert index v, vs =>
    (index.positionBelow? (vs.length + 1)).map fun k => (none, vs.take k ++ v :: vs.drop k)
  | removeAt index, vs =>
    (index.positionBelow? vs.length).map fun k => (none, vs.take k ++ vs.drop (k + 1))
  | clear, _ => some (none, [])

/-- The call of the operation on a target. -/
def call (op : ListOperation) (flags : AccessFlags) (target : Option Value) : HostCall :=
  ⟨.core "List", op.name, flags, target, op.args⟩

/-- The result of the operation and the store that it leaves, on a target that is a list. -/
def on? (op : ListOperation) (s : Store) (target : Option Value) : Option (Option Value × Store) :=
  (target.bind Value.list?).bind fun l =>
    (op.result? (s.items l).toList).map fun (v, vs) => (v, s.withItems l vs)

/-- What a run has to come to: what the operation makes of the elements, or a failure that leaves
everything as it was. -/
def Outcome {σ : Type} (op : ListOperation) (s : Store) (target : Option Value) (x : σ)
    (y : Except HostError (Option Value) × Store × σ) : Prop :=
  match op.on? s target with
  | some (v, s') => y = (.ok v, s', x)
  | none => ∃ e, y = (.error e, s, x)

/-! ## Members -/

variable {σ : Type} {ctx : HostProgram.CallbackContext σ} {s : Store} {x : σ} {l : ListId}
  {index v : Value} {k bound : Nat} {op : ListOperation} {inv : Invocation}
  {target : Option Value}

open HostProgram

theorem positionBelow?_of_lt (hk : index.position? = some k) (h : k < bound) :
    index.positionBelow? bound = some k := by
  simp [Value.positionBelow?, hk, h]

theorem positionBelow?_of_ge (hk : index.position? = some k) (h : ¬ k < bound) :
    index.positionBelow? bound = none := by
  simp only [Value.positionBelow?, hk, Option.filter_some, h, decide_false]
  rfl

theorem positionBelow?_of_none (hk : index.position? = none) (bound : Nat) :
    index.positionBelow? bound = none := by
  simp [Value.positionBelow?, hk]

theorem outcome_of_some {r : Option Value} {vs : List Value} (hl : target.bind Value.list? = some l)
    (h : op.result? (s.items l).toList = some (r, vs)) :
    op.Outcome s target x (.ok r, s.withItems l vs, x) := by
  simp [Outcome, on?, hl, h]

theorem outcome_of_read {r : Option Value} (hl : target.bind Value.list? = some l)
    (h : op.result? (s.items l).toList = some (r, (s.items l).toList)) :
    op.Outcome s target x (.ok r, s, x) := by
  have hsame := outcome_of_some (x := x) hl h
  rwa [Store.withItems_self] at hsame

theorem outcome_of_none (hl : target.bind Value.list? = some l) (e : HostError)
    (h : op.result? (s.items l).toList = none) : op.Outcome s target x (.error e, s, x) := by
  simp [Outcome, on?, hl, h]

theorem outcome_of_no_list (hl : target.bind Value.list? = none) (e : HostError) :
    op.Outcome s target x (.error e, s, x) := by
  simp [Outcome, on?, hl]

theorem outcome_of_never (h : ∀ vs, op.result? vs = none) (e : HostError) :
    op.Outcome s target x (.error e, s, x) := by
  cases hl : target.bind Value.list? with
  | none => exact outcome_of_no_list hl e
  | some l => exact outcome_of_none hl e (h _)

/-- A member that needs a position goes on with the one that its first argument names. -/
theorem outcome_of_position {f : Nat → HostProgram (Option Value)}
    (hi : inv.args[0]? = some index) (hnone : index.position? = none → ∀ vs, op.result? vs = none)
    (hsome : ∀ k, index.position? = some k →
      op.Outcome s inv.target x ((f k).runWith ctx s x)) :
    op.Outcome s inv.target x ((inv.position 0 >>= f).runWith ctx s x) := by
  cases hk : index.position? with
  | some k =>
    rw [runWith_bind_of_ok (Invocation.runWith_position_of_some hi hk)]
    exact hsome k hk
  | none =>
    obtain ⟨e, he⟩ := Invocation.runWith_position_of_none ctx s x hi hk
    rw [runWith_bind_of_error he]
    exact outcome_of_never (hnone hk) e

/-- A member goes on with the list that is its target. -/
theorem outcome_of_thisList {f : ListId → HostProgram (Option Value)}
    (hsome : ∀ l, inv.target.bind Value.list? = some l →
      op.Outcome s inv.target x ((f l).runWith ctx s x)) :
    op.Outcome s inv.target x ((inv.thisList >>= f).runWith ctx s x) := by
  cases hl : inv.target.bind Value.list? with
  | some l =>
    have hthis : inv.thisList.runWith ctx s x = (.ok l, s, x) :=
      Invocation.runWith_thisAs_of_some "List" hl
    rw [runWith_bind_of_ok hthis]
    exact hsome l hl
  | none =>
    obtain ⟨e, he⟩ := Invocation.runWith_thisAs_of_none ctx s x "List" hl
    rw [Invocation.thisList, runWith_bind_of_error he]
    exact outcome_of_no_list hl e

/-- A member goes on with the elements of its target. -/
theorem outcome_of_theseItems {f : Array Value → HostProgram (Option Value)}
    (hsome : ∀ l, inv.target.bind Value.list? = some l →
      op.Outcome s inv.target x ((f (s.items l)).runWith ctx s x)) :
    op.Outcome s inv.target x ((CoreModule.theseItems inv >>= f).runWith ctx s x) := by
  cases hl : inv.target.bind Value.list? with
  | some l =>
    have hthis : inv.thisList.runWith ctx s x = (.ok l, s, x) :=
      Invocation.runWith_thisAs_of_some "List" hl
    have hthese : (CoreModule.theseItems inv).runWith ctx s x = (.ok (s.items l), s, x) :=
      runWith_bind_of_ok hthis _
    rw [runWith_bind_of_ok hthese]
    exact hsome l hl
  | none =>
    obtain ⟨e, he⟩ := Invocation.runWith_thisAs_of_none ctx s x "List" hl
    have hthese : (CoreModule.theseItems inv).runWith ctx s x = (.error e, s, x) :=
      runWith_bind_of_error he _
    rw [runWith_bind_of_error hthese]
    exact outcome_of_no_list hl e

/-- The end of a member that changes a list: where the position does not fit, it fails. -/
theorem runWith_guarded (fits : Store → Prop) [DecidablePred fits] (change : Store → Store)
    (k : Nat) :
    (do
      let fits ← query fun s => decide (fits s)
      if fits then
        modifyStore change
        pure none
      else CoreModule.outOfRange k : HostProgram (Option Value)).runWith ctx s x =
      if fits s then (.ok none, change s, x)
      else (.error (.failed ("index " ++ countText k ++ " is out of range")), s, x) := by
  rw [runWith_bind_of_ok (runWith_query ..)]
  by_cases h : fits s <;> simp [h, runWith_bind, CoreModule.outOfRange]

theorem item_outcome (hi : inv.args[0]? = some index) :
    (item index).Outcome s inv.target x ((CoreModule.item inv).runWith ctx s x) := by
  refine outcome_of_position hi (fun hk vs => ?_) fun k hk => outcome_of_theseItems fun l hl => ?_
  · simp [result?, positionBelow?_of_none hk]
  · by_cases hlt : k < (s.items l).size
    · have hresult : (item index).result? (s.items l).toList =
          some (some (s.items l)[k], (s.items l).toList) := by
        simp [result?, positionBelow?_of_lt hk, hlt]
      simpa [hlt] using outcome_of_read (x := x) hl hresult
    · have hnone : (s.items l)[k]? = none := by simpa using hlt
      simp only [hnone, CoreModule.outOfRange, runWith_fail]
      exact outcome_of_none hl _ (by simp [result?, positionBelow?_of_ge hk, hlt])

theorem setItem_outcome (hi : inv.args[0]? = some index) (hv : inv.args[1]? = some v) :
    (setItem index v).Outcome s inv.target x ((CoreModule.setItem inv).runWith ctx s x) := by
  refine outcome_of_position hi (fun hk vs => ?_) fun k hk => outcome_of_thisList fun l hl => ?_
  · simp [result?, positionBelow?_of_none hk]
  · rw [runWith_bind_of_ok (Invocation.runWith_arg hv), runWith_guarded]
    split
    · next hlt =>
      rw [Store.setAt_eq hlt]
      exact outcome_of_some hl (by simp [result?, positionBelow?_of_lt hk, hlt])
    · next hge => exact outcome_of_none hl _ (by simp [result?, positionBelow?_of_ge hk, hge])

theorem insert_outcome (hi : inv.args[0]? = some index) (hv : inv.args[1]? = some v) :
    (insert index v).Outcome s inv.target x ((CoreModule.insert inv).runWith ctx s x) := by
  refine outcome_of_position hi (fun hk vs => ?_) fun k hk => outcome_of_thisList fun l hl => ?_
  · simp [result?, positionBelow?_of_none hk]
  · rw [runWith_bind_of_ok (Invocation.runWith_arg hv), runWith_guarded]
    split
    · next hle =>
      rw [Store.insertAt_eq hle]
      exact outcome_of_some hl (by simp [result?, positionBelow?_of_lt hk, Nat.lt_succ_of_le hle])
    · next hgt =>
      have hge : ¬ k < (s.items l).size + 1 := by omega
      exact outcome_of_none hl _ (by simp [result?, positionBelow?_of_ge hk hge])

theorem removeAt_outcome (hi : inv.args[0]? = some index) :
    (removeAt index).Outcome s inv.target x ((CoreModule.removeAt inv).runWith ctx s x) := by
  refine outcome_of_position hi (fun hk vs => ?_) fun k hk => outcome_of_thisList fun l hl => ?_
  · simp [result?, positionBelow?_of_none hk]
  · rw [runWith_guarded]
    split
    · next hlt =>
      rw [Store.removeAt_eq hlt]
      exact outcome_of_some hl (by simp [result?, positionBelow?_of_lt hk, hlt])
    · next hge => exact outcome_of_none hl _ (by simp [result?, positionBelow?_of_ge hk, hge])

/-- Each operation is a member of lists, and acts on the elements of its target. -/
theorem exists_member (op : ListOperation) :
    ∃ m, CoreModule.list.select op.name op.args.size (·.kind.isSought op.readsProperty) = .ok m ∧
      m.receiver = .ofInstance ∧
      ∀ (σ : Type) (ctx : CallbackContext σ) (s : Store) (x : σ) (inv : Invocation),
        inv.args = op.args → op.Outcome s inv.target x ((m.body inv).runWith ctx s x) := by
  cases op with
  | count =>
    refine ⟨_, rfl, rfl, fun σ ctx s x inv _ => outcome_of_theseItems fun l hl => ?_⟩
    exact outcome_of_read hl rfl
  | item index => exact ⟨_, rfl, rfl, fun σ ctx s x inv h => item_outcome (by rw [h]; rfl)⟩
  | setItem index v =>
    exact ⟨_, rfl, rfl, fun σ ctx s x inv h =>
      setItem_outcome (by rw [h]; rfl) (by rw [h]; rfl)⟩
  | add v =>
    refine ⟨_, rfl, rfl, fun σ ctx s x inv h => outcome_of_thisList fun l hl => ?_⟩
    have hv : (inv.arg 0).runWith ctx s x = (.ok v, s, x) := Invocation.runWith_arg (by rw [h]; rfl)
    rw [runWith_bind_of_ok hv, runWith_bind_of_ok (runWith_modifyStore ..), Store.push_eq]
    exact outcome_of_some hl rfl
  | insert index v =>
    exact ⟨_, rfl, rfl, fun σ ctx s x inv h =>
      insert_outcome (by rw [h]; rfl) (by rw [h]; rfl)⟩
  | removeAt index => exact ⟨_, rfl, rfl, fun σ ctx s x inv h => removeAt_outcome (by rw [h]; rfl)⟩
  | clear =>
    refine ⟨_, rfl, rfl, fun σ ctx s x inv _ => outcome_of_thisList fun l hl => ?_⟩
    rw [runWith_bind_of_ok (runWith_modifyStore ..), Store.clear_eq]
    exact outcome_of_some hl rfl

variable (ctx s x op) in
/-- What the run of a call comes to, for any target. -/
theorem outcome_of_call {r : Registry} (hr : r.descriptor? (.core "List") = some CoreModule.list)
    {flags : AccessFlags} (hf : flags.Seeks op.readsProperty) (target : Option Value) :
    op.Outcome s target x ((r.invoke (op.call flags target)).runWith ctx s x) := by
  obtain ⟨m, hm, hreceiver, hbody⟩ := exists_member op
  have hreaches : r.Reaches (op.call flags target) m m.body := Registry.reaches_of_seeks hr hf hm
  cases target with
  | none =>
    rw [hreaches.lacks hreceiver rfl]
    exact outcome_of_no_list rfl _
  | some v =>
    rw [hreaches.runs fun _ => rfl]
    exact hbody σ ctx s x ⟨some v, op.args⟩ rfl

/-- What is inserted into a sequence can be removed from it again. -/
theorem result?_removeAt_of_insert {vs ws : List Value} {r : Option Value}
    (h : (insert index v).result? vs = some (r, ws)) :
    (removeAt index).result? ws = some (none, vs) := by
  obtain ⟨k, hk, hr⟩ := Option.map_eq_some_iff.1 h
  obtain ⟨rfl, rfl⟩ := Prod.mk.injEq .. ▸ hr
  obtain ⟨hpos, hlt⟩ : index.position? = some k ∧ k < vs.length + 1 := by
    simpa [Value.positionBelow?, Option.filter_eq_some_iff] using hk
  have hle : k ≤ vs.length := Nat.lt_succ_iff.1 hlt
  have hbelow : index.positionBelow? (vs.take k ++ v :: vs.drop k).length = some k :=
    positionBelow?_of_lt hpos (by simp; omega)
  rw [result?, hbelow, Option.map_some]
  have hcut : (vs.take k ++ v :: vs.drop k).take k = vs.take k := by simp [hle]
  have hrest : (vs.take k ++ v :: vs.drop k).drop (k + 1) = vs.drop k := by
    rw [List.drop_append]
    simp [hle]
  rw [hcut, hrest, List.take_append_drop]

section Runs

variable {r : Registry} (hr : r.descriptor? (.core "List") = some CoreModule.list)
  {flags : AccessFlags} (ctx : CallbackContext σ) (s : Store) (x : σ)

include hr

theorem run_of_result {result : Option Value} {vs : List Value}
    (hf : flags.Seeks op.readsProperty)
    (h : op.result? (s.items l).toList = some (result, vs)) :
    (r.invoke (op.call flags (some (.list l)))).runWith ctx s x =
      (.ok result, s.withItems l vs, x) := by
  have hrun := outcome_of_call ctx s x op hr hf (some (.list l))
  simpa [Outcome, on?, Value.list?, h] using hrun

theorem run_of_no_result (hf : flags.Seeks op.readsProperty)
    (h : op.result? (s.items l).toList = none) :
    ∃ e, (r.invoke (op.call flags (some (.list l)))).runWith ctx s x = (.error e, s, x) := by
  have hrun := outcome_of_call ctx s x op hr hf (some (.list l))
  simpa [Outcome, on?, Value.list?, h] using hrun

theorem run_of_no_list (hf : flags.Seeks op.readsProperty) (h : target.bind Value.list? = none) :
    ∃ e, (r.invoke (op.call flags target)).runWith ctx s x = (.error e, s, x) := by
  have hrun := outcome_of_call ctx s x op hr hf target
  simpa [Outcome, on?, h] using hrun

/-- A removal at the same index undoes an insertion. -/
theorem removeAt_undoes_insert {result : Option Value} {s₁ : Store} {x₁ : σ}
    (hf : flags.Seeks false) (hl : s.Live l)
    (h : (r.invoke ((insert index v).call flags (some (.list l)))).runWith ctx s x =
      (.ok result, s₁, x₁)) :
    (r.invoke ((removeAt index).call flags (some (.list l)))).runWith ctx s₁ x₁ =
      (.ok none, s, x) := by
  cases hop : (insert index v).result? (s.items l).toList with
  | none =>
    obtain ⟨e, he⟩ := run_of_no_result hr ctx s x hf hop
    cases he.symm.trans h
  | some inserted =>
    obtain ⟨result', vs⟩ := inserted
    obtain ⟨rfl, rfl, rfl⟩ : result' = result ∧ s.withItems l vs = s₁ ∧ x = x₁ := by
      simpa using (run_of_result hr ctx s x hf hop).symm.trans h
    have hremoved : (removeAt index).result? ((s.withItems l vs).items l).toList =
        some (none, (s.items l).toList) := by
      rw [Store.items_withItems hl]
      exact result?_removeAt_of_insert hop
    rw [run_of_result hr ctx _ x hf hremoved, Store.withItems_withItems, Store.withItems_self]

end Runs

end ListOperation

/-! ## Calls -/

/-- A call of an operation on a list has the result and leaves the elements that the operation says,
for every holder of the list, and in no other list; where the operation has no result, and where the
target is no list, the call fails and nothing has changed. What was inserted, and then is removed at
the same index, has left nothing behind. -/
theorem list_operations_exact {σ : Type} {r : Registry}
    (hr : r.descriptor? (.core "List") = some CoreModule.list)
    (ctx : HostProgram.CallbackContext σ) (s : Store) (x : σ) :
    (∀ (op : ListOperation) (flags : AccessFlags), flags.Seeks op.readsProperty →
      (∀ l, s.Live l →
        (∀ v vs, op.result? (s.items l).toList = some (v, vs) →
          ∃ s', (r.invoke (op.call flags (some (.list l)))).runWith ctx s x = (.ok v, s', x) ∧
            s'.items l = vs.toArray ∧ (∀ l', l' ≠ l → s'.items l' = s.items l') ∧
            s' = s.withItems l vs ∧ (vs = (s.items l).toList → s' = s)) ∧
        (op.result? (s.items l).toList = none →
          ∃ e, (r.invoke (op.call flags (some (.list l)))).runWith ctx s x = (.error e, s, x))) ∧
      ∀ target, target.bind Value.list? = none →
        ∃ e, (r.invoke (op.call flags target)).runWith ctx s x = (.error e, s, x)) ∧
    (∀ (flags : AccessFlags), flags.Seeks false → ∀ l, s.Live l → ∀ index v result s₁ x₁,
      (r.invoke ((ListOperation.insert index v).call flags (some (.list l)))).runWith ctx s x =
        (.ok result, s₁, x₁) →
      (r.invoke ((ListOperation.removeAt index).call flags (some (.list l)))).runWith ctx s₁ x₁ =
        (.ok none, s, x)) ∧
    ∀ l, FitsInt64 (s.items l).size →
      (Int64.ofInt (s.items l).size).toInt = (s.items l).size := by
  refine ⟨fun op flags hf => ⟨fun l hl => ⟨fun v vs hop => ?_, fun hop => ?_⟩, fun target ht => ?_⟩,
    fun flags hf l hl index v result s₁ x₁ hinsert => ?_, fun l hsize => toInt_ofInt hsize⟩
  · refine ⟨s.withItems l vs, ListOperation.run_of_result hr ctx s x hf hop,
      Store.items_withItems hl, fun l' => Store.items_withItems_of_ne, rfl, ?_⟩
    rintro rfl
    exact Store.withItems_self
  · exact ListOperation.run_of_no_result hr ctx s x hf hop
  · exact ListOperation.run_of_no_list hr ctx s x hf ht
  · exact ListOperation.removeAt_undoes_insert hr ctx s x hf hl hinsert

/-- A list of two numbers, and a list that holds it. -/
def nestedLists : Store := { lists := #[#[.integer 1, .integer 2], #[.list ⟨0⟩]] }

/-- At its end the inner list takes a value; past its end it takes none, and it has still two. -/
theorem list_operations_exact_of_nested :
    let r := Registry.ofModules [coreModule]
    let flags := AccessFlags.forAccess (.method false) .ofInstance 2
    let insertAt index := (ListOperation.insert (.integer index) (.text "x")).call flags
      (some (.list ⟨0⟩))
    let count := ListOperation.count.call (.forAccess .property .ofInstance 0) (some (.list ⟨0⟩))
    ∀ ctx : HostProgram.CallbackContext Unit,
      r.descriptor? (.core "List") = some CoreModule.list ∧ flags.Seeks false ∧
        nestedLists.Live ⟨0⟩ ∧
      (∃ s', (r.invoke (insertAt 2)).runWith ctx nestedLists () = (.ok none, s', ()) ∧
        s'.items ⟨0⟩ = #[.integer 1, .integer 2, .text "x"] ∧
        s'.items ⟨1⟩ = #[.list ⟨0⟩]) ∧
      (∃ e, (r.invoke (insertAt 3)).runWith ctx nestedLists () = (.error e, nestedLists, ())) ∧
      (r.invoke count).runWith ctx nestedLists () =
        (.ok (some (.integer 2)), nestedLists, ()) := by
  intro r flags insertAt count ctx
  have hr : r.descriptor? (.core "List") = some CoreModule.list := rfl
  have hf : flags.Seeks false := AccessFlags.seeks_forAccess_method ..
  have hlive : nestedLists.Live ⟨0⟩ := by decide
  obtain ⟨hcall, -, -⟩ := list_operations_exact hr ctx nestedLists ()
  obtain ⟨hin, -⟩ := hcall (.insert (.integer 2) (.text "x")) flags hf
  obtain ⟨hout, -⟩ := hcall (.insert (.integer 3) (.text "x")) flags hf
  obtain ⟨hcount, -⟩ := hcall .count _ (AccessFlags.seeks_forAccess_property .ofInstance)
  obtain ⟨s', hrun, hitems, hothers, -⟩ := (hin ⟨0⟩ hlive).1 none
    [.integer 1, .integer 2, .text "x"] rfl
  obtain ⟨s₂, hread, -, -, -, hsame⟩ := (hcount ⟨0⟩ hlive).1 (some (.integer 2)) _ rfl
  obtain rfl := hsame rfl
  exact ⟨hr, hf, hlive, ⟨s', hrun, hitems, hothers ⟨1⟩ (by decide)⟩, (hout ⟨0⟩ hlive).2 rfl, hread⟩

end WordStack
