import Mathlib.Data.List.Nodup
import WordStack.Proofs.Edits

/-!
# Binding lists of keys

The words `set`, `put` and `get` on a list of keys. Values are taken from the top of the stack and
keys from the end of their list, so the first of several places of a key is bound last and stays
(`bindAll_from`, `Scopes.binds_setAll`). All that is bound is in the innermost scope of one kind.
Looked up from the left, distinct keys give the values back in the order in which they were.
-/

namespace WordStack

open Interp

/-! ## The operands of a state -/

/-- The state with these operands, from the bottom up, and otherwise as it is. -/
def Interp.withStack (i : Interp) (vs : List Value) : Interp := { i with stack := ⟨vs.toArray⟩ }

section Stack

variable {i : Interp} {v : Value} {vs : List Value}

/-- Every state is so, with the operands that it has. -/
theorem withStack_self (i : Interp) : i.withStack i.stack.values.toList = i := rfl

theorem pop_withStack_append : Interp.pop (i.withStack (vs ++ [v])) = (.ok v, i.withStack vs) := by
  simp [Interp.pop, popping, OperandStack.pop, withStack]

theorem pop_withStack_nil :
    Interp.pop (i.withStack []) = (.error .stackUnderflow, i.withStack []) := rfl

theorem push_withStack : Interp.push v (i.withStack vs) = (.ok (), i.withStack (vs ++ [v])) := by
  have hpush : (⟨vs.toArray⟩ : OperandStack).push v = ⟨(vs ++ [v]).toArray⟩ := by
    simp [OperandStack.push]
  change (Except.ok (), { i with stack := (⟨vs.toArray⟩ : OperandStack).push v }) = _
  rw [hpush]
  rfl

end Stack

/-! ## Several bindings in one scope -/

namespace Scopes

/-- Bind one name after the other in the innermost scope. -/
def setAll (b : Scopes) (bindings : List (String × Value)) : Scopes :=
  bindings.foldl (fun b p => b.set p.1 p.2) b

/-- The names of the pairs are bound in the innermost scope, each to the value of its first pair,
and nothing else has changed. -/
structure Binds (b b' : Scopes) (pairs : List (String × Value)) : Prop where
  outer : b'.outer = b.outer
  own : ∀ name : String, b'.innermost.own[name]? = (pairs.lookup name).or b.innermost.own[name]?

variable {b b' : Scopes} {pairs : List (String × Value)} {name : String}

/-- What is bound last stays, so pairs are bound from the last one on. -/
theorem binds_setAll (b : Scopes) (pairs : List (String × Value)) :
    b.Binds (b.setAll pairs.reverse) pairs := by
  rw [setAll, List.foldl_reverse]
  induction pairs with
  | nil => exact ⟨rfl, fun name => by simp⟩
  | cons p pairs ih =>
    refine ⟨ih.outer, fun name => ?_⟩
    rw [List.foldr_cons, own_set, ih.own name, List.lookup_cons]
    by_cases h : p.1 = name
    · subst h
      simp
    · have hne : (name == p.1) = false := by simpa using Ne.symm h
      simp [h, hne]

/-- A name means what it is bound to, and a name that is not bound means what it did. -/
theorem Binds.get? (h : b.Binds b' pairs) (name : String) :
    b'.get? name = (pairs.lookup name).or (b.get? name) := by
  rw [get?_eq_own, get?_eq_own, h.outer, h.own name, Option.or_assoc]

end Scopes

/-! ## Pairs of keys and values -/

section Pairs

variable {keys : List String} {vs : List Value}

theorem isSome_lookup_zip {key : String} (hlength : vs.length = keys.length) (h : key ∈ keys) :
    ((keys.zip vs).lookup key).isSome = true := by
  induction keys generalizing vs with
  | nil => cases h
  | cons k keys ih =>
    obtain ⟨v, vs, rfl⟩ := List.exists_cons_of_length_eq_add_one hlength
    rw [List.zip_cons_cons, List.lookup_cons]
    by_cases hk : key = k
    · simp [hk]
    · have hne : (key == k) = false := by simpa using hk
      rw [hne]
      exact ih (by simpa using hlength) ((List.mem_cons.1 h).resolve_left hk)

/-- Distinct keys are each bound to the value at their own place. -/
theorem map_lookup_zip (hlength : vs.length = keys.length) (hd : keys.Nodup) :
    (keys.map fun key => (keys.zip vs).lookup key) = vs.map some := by
  induction keys generalizing vs with
  | nil => simp [List.length_eq_zero_iff.1 hlength]
  | cons k keys ih =>
    obtain ⟨v, vs, rfl⟩ := List.exists_cons_of_length_eq_add_one hlength
    obtain ⟨hk, hd⟩ := List.nodup_cons.1 hd
    have hrest : (keys.map fun key => ((k :: keys).zip (v :: vs)).lookup key) =
        keys.map fun key => (keys.zip vs).lookup key := by
      refine List.map_congr_left fun key hkey => ?_
      have hne : (key == k) = false := by
        rw [beq_eq_false_iff_ne]
        rintro rfl
        exact hk hkey
      rw [List.zip_cons_cons, List.lookup_cons, hne]
    rw [List.map_cons, List.map_cons, hrest, ih (by simpa using hlength) hd, List.zip_cons_cons,
      List.lookup_cons_self]

theorem exists_map_some {f : String → Option Value} (h : ∀ key ∈ keys, (f key).isSome = true) :
    ∃ vs : List Value, vs.map some = keys.map f := by
  induction keys with
  | nil => exact ⟨[], rfl⟩
  | cons key keys ih =>
    obtain ⟨v, hv⟩ := Option.isSome_iff_exists.1 (h key (by simp))
    obtain ⟨vs, hvs⟩ := ih fun key hkey => h key (by simp [hkey])
    exact ⟨v :: vs, by rw [List.map_cons, List.map_cons, hv, hvs]⟩

/-- The last keys are paired with the values, if there are more keys than values. -/
theorem zip_reverse_eq (h : vs.length ≤ keys.length) : keys.reverse.zip vs.reverse =
    ((keys.drop (keys.length - vs.length)).zip vs).reverse := by
  have hlast : (keys.drop (keys.length - vs.length)).length = vs.length := by
    rw [List.length_drop]
    omega
  have hreverse : (keys.drop (keys.length - vs.length)).reverse = keys.reverse.take vs.length := by
    rw [List.reverse_drop]
    congr 1
    omega
  rw [List.zip_eq_zip_take_min, List.length_reverse, List.length_reverse, Nat.min_eq_right h,
    ← hreverse, List.take_of_length_le (by simp), List.zip_eq_zipWith, List.zip_eq_zipWith,
    List.reverse_zipWith hlast]

end Pairs

/-! ## Where keys are bound -/

/-- Keys are bound for good, or put for a call. -/
inductive BindingTarget where
  | set
  | put
  deriving DecidableEq, Repr

namespace BindingTarget

/-- The word that binds there. -/
def word : BindingTarget → Primitive
  | set => .set
  | put => .put

def scopes (i : Interp) : BindingTarget → Scopes
  | set => i.setWords
  | put => i.putWords

/-- The state with other bindings there, and nothing else changed. -/
def update (i : Interp) (b : Scopes) : BindingTarget → Interp
  | set => { i with setWords := b }
  | put => { i with putWords := b }

def bind : BindingTarget → String → Value → Eval Unit
  | set => bindSet
  | put => bindPut

/-- What a name that is bound there means instead: a name that is set is covered by a put one. -/
def covering (i : Interp) : BindingTarget → String → Option Value
  | set => i.putWords.get?
  | put => fun _ => none

/-- The names of the pairs are bound there, each to the value of its first pair, and nothing else
has changed. -/
structure Binds (target : BindingTarget) (i i' : Interp) (pairs : List (String × Value)) :
    Prop where
  bound : (target.scopes i).Binds (target.scopes i') pairs
  others : i' = target.update i (target.scopes i')

variable {target : BindingTarget} {i i' : Interp} {b b' : Scopes} {pairs : List (String × Value)}

theorem bind_apply (name : String) (v : Value) :
    target.bind name v i = (.ok (), target.update i ((target.scopes i).set name v)) := by
  cases target <;> rfl

@[simp] theorem scopes_update : target.scopes (target.update i b) = b := by
  cases target <;> rfl

@[simp] theorem update_update :
    target.update (target.update i b) b' = target.update i b' := by
  cases target <;> rfl

@[simp] theorem update_scopes : target.update i (target.scopes i) = i := by
  cases target <;> rfl

@[simp] theorem scopes_withStack (vs : List Value) :
    target.scopes (i.withStack vs) = target.scopes i := by
  cases target <;> rfl

theorem update_withStack (vs : List Value) :
    target.update (i.withStack vs) b = (target.update i b).withStack vs := by
  cases target <;> rfl

/-- Pairs that are bound from the last one on are bound as `Binds` says. -/
theorem binds_update (target : BindingTarget) (i : Interp) (pairs : List (String × Value)) :
    target.Binds i (target.update i ((target.scopes i).setAll pairs.reverse)) pairs where
  bound := by
    rw [scopes_update]
    exact Scopes.binds_setAll _ _
  others := by rw [scopes_update]

theorem Binds.store (h : target.Binds i i' pairs) : i'.store = i.store := by
  rw [h.others]
  cases target <;> rfl

/-- A name among the pairs means what it is bound to, unless that is covered. -/
theorem Binds.lookup? (h : target.Binds i i' pairs) {name : String}
    (hname : (pairs.lookup name).isSome = true) :
    i'.lookup? name = (target.covering i name).or (pairs.lookup name) := by
  obtain ⟨v, hv⟩ := Option.isSome_iff_exists.1 hname
  have hget : (target.scopes i').get? name = some v := by rw [h.bound.get? name, hv, Option.some_or]
  rw [hv, h.others]
  cases target with
  | set =>
    have hset : i'.setWords.get? name = some v := hget
    change (i.putWords.get? name).orElse (fun _ => i'.setWords.get? name) = _
    rw [hset, covering]
    cases i.putWords.get? name <;> rfl
  | put =>
    have hput : i'.putWords.get? name = some v := hget
    change (i'.putWords.get? name).orElse (fun _ => i.setWords.get? name) = _
    rw [hput]
    rfl

end BindingTarget

/-! ## Keys -/

/-- The elements of the list are keys, symbols or texts, with these names. -/
def Store.IsKeyList (s : Store) (l : ListId) (keys : List String) : Prop :=
  (s.items l).toList.map Value.name? = keys.map some

section Keys

variable {i : Interp} {l : ListId} {keys ks : List String} {vs ws : List Value}

theorem keysOf_apply (h : vs.map Value.name? = keys.map some) : keysOf vs i = (.ok keys, i) := by
  induction vs generalizing keys with
  | nil =>
    obtain rfl : keys = [] := by simpa using h.symm
    rfl
  | cons v vs ih =>
    cases keys with
    | nil => cases h
    | cons key keys =>
      obtain ⟨hv, hvs⟩ := List.cons.inj h
      have hkey : keyOf v i = (.ok key, i) := by
        rw [keyOf, hv]
        rfl
      rw [keysOf, Interp.bind_of_ok hkey, Interp.bind_of_ok (ih hvs)]
      rfl

/-- The list is taken, and its keys are read without a change of the state. -/
theorem popKeys_apply (h : i.store.IsKeyList l keys) :
    popKeys (i.withStack (vs ++ [.list l])) = (.ok keys, i.withStack vs) := by
  rw [popKeys, Interp.bind_of_ok pop_withStack_append]
  exact keysOf_apply h

/-- As many keys are bound as there are values, from the top of the stack down. -/
theorem bindAll_from (target : BindingTarget) (ks : List String) (ws : List Value) (i : Interp) :
    bindAll target.bind ks (i.withStack ws.reverse) =
      (if ks.length ≤ ws.length then .ok () else .error .stackUnderflow,
        (target.update i ((target.scopes i).setAll (ks.zip ws))).withStack
          (ws.drop ks.length).reverse) := by
  induction ks generalizing ws i with
  | nil =>
    rw [bindAll, List.zip_nil_left, Scopes.setAll, List.foldl_nil, BindingTarget.update_scopes]
    rfl
  | cons key ks ih =>
    cases ws with
    | nil =>
      rw [List.reverse_nil, bindAll, Interp.bind_apply, pop_withStack_nil, List.zip_nil_right,
        Scopes.setAll, List.foldl_nil, BindingTarget.update_scopes]
      rfl
    | cons v ws =>
      rw [List.reverse_cons, bindAll, Interp.bind_of_ok pop_withStack_append,
        Interp.bind_of_ok (BindingTarget.bind_apply key v), BindingTarget.update_withStack, ih]
      simp [Scopes.setAll]

/-- What the keys mean is pushed in their order. -/
theorem pushAll_from (h : keys.map i.lookup? = vs.map some) :
    pushAll keys (i.withStack ws) = (.ok (), i.withStack (ws ++ vs)) := by
  induction keys generalizing vs ws with
  | nil =>
    obtain rfl : vs = [] := by simpa using h.symm
    rw [List.append_nil]
    rfl
  | cons key keys ih =>
    cases vs with
    | nil => cases h
    | cons v vs =>
      obtain ⟨hv, hvs⟩ := List.cons.inj h
      have hv : (i.withStack ws).lookup? key = some v := hv
      have hget : (get : Eval Interp) (i.withStack ws) = (.ok (i.withStack ws), i.withStack ws) :=
        rfl
      rw [pushAll, Interp.bind_of_ok hget, hv]
      dsimp only
      rw [Interp.bind_of_ok push_withStack, ih hvs, List.append_assoc, List.singleton_append]

end Keys

/-! ## The words -/

section Words

variable {i i' : Interp} {l : ListId} {keys : List String} {vs rest : List Value}
  {target : BindingTarget}

theorem thenDone_apply (act : Eval Unit) (i : Interp) :
    thenDone act i = ((act i).1.map fun _ => .done, (act i).2) := by
  rw [thenDone, Interp.bind_apply]
  rcases act i with ⟨_ | _, _⟩ <;> rfl

/-- What a binding word does to the operands below its list, however many they are. -/
theorem word_apply (target : BindingTarget) (vs : List Value) (h : i.store.IsKeyList l keys) :
    primitive target.word (i.withStack (vs ++ [.list l])) =
      (if keys.length ≤ vs.length then .ok .done else .error .stackUnderflow,
        (target.update i ((target.scopes i).setAll (keys.reverse.zip vs.reverse))).withStack
          (vs.reverse.drop keys.length).reverse) := by
  have hword : primitive target.word =
      thenDone (popKeys >>= fun keys => bindAll target.bind keys.reverse) := by
    cases target <;> rfl
  have hbind := bindAll_from target keys.reverse vs.reverse i
  rw [List.reverse_reverse, List.length_reverse, List.length_reverse] at hbind
  rw [hword, thenDone_apply, Interp.bind_of_ok (popKeys_apply h), hbind]
  split <;> rfl

theorem get_apply (h : i.store.IsKeyList l keys) (hvs : keys.map i.lookup? = vs.map some) :
    primitive .get (i.withStack (rest ++ [.list l])) = (.ok .done, i.withStack (rest ++ vs)) := by
  have hword : primitive .get = thenDone (popKeys >>= pushAll) := rfl
  rw [hword, thenDone_apply, Interp.bind_of_ok (popKeys_apply h), pushAll_from hvs]
  rfl

/-- With a value for each key, the values and the list are taken and the keys are bound. -/
theorem word_binds (target : BindingTarget) (rest : List Value) (h : i.store.IsKeyList l keys)
    (hlength : vs.length = keys.length) : ∃ i', target.Binds i i' (keys.zip vs) ∧
      primitive target.word (i.withStack (rest ++ vs ++ [.list l])) =
        (.ok .done, i'.withStack rest) := by
  refine ⟨_, target.binds_update i _, ?_⟩
  have hpairs : keys.reverse.zip (rest ++ vs).reverse = (keys.zip vs).reverse := by
    have hreverse : keys.reverse.zip vs.reverse = _ := zip_reverse_eq (by omega)
    rw [hlength, Nat.sub_self, List.drop_zero] at hreverse
    rw [← hreverse, List.reverse_append, ← List.append_nil keys.reverse,
      List.zip_append (by simp [hlength])]
    simp
  have hrest : (rest ++ vs).reverse.drop keys.length = rest.reverse := by
    rw [List.reverse_append, List.drop_append_of_le_length (by simp [hlength])]
    simp [hlength]
  rw [word_apply target _ h, hpairs, hrest, List.reverse_reverse, if_pos (by simp [hlength])]

/-- With too few values, all of them are taken, and the last keys are bound to them. -/
theorem word_underflows (target : BindingTarget) (h : i.store.IsKeyList l keys)
    (hlength : vs.length < keys.length) :
    ∃ i', target.Binds i i' ((keys.drop (keys.length - vs.length)).zip vs) ∧
      primitive target.word (i.withStack (vs ++ [.list l])) =
        (.error .stackUnderflow, i'.withStack []) := by
  refine ⟨_, target.binds_update i _, ?_⟩
  have hnone : vs.reverse.drop keys.length = [] := List.drop_eq_nil_of_le (by simp; omega)
  rw [word_apply target _ h, zip_reverse_eq (Nat.le_of_lt hlength), hnone, List.reverse_nil,
    if_neg (Nat.not_le.2 hlength)]

end Words

/-- The words `set` and `put` on a list of keys, symbols or texts, with operands below it. If there
is a value for each key, the list and the values are taken, each key is bound in the innermost scope
to the value at its first place, and nothing else has changed. The word `get` on the same keys then
pushes what each of them means, and these are the same values again, if no key comes twice and none
of them is covered. If there are fewer values, the word fails where there are none left, and as many
keys are bound from the end of the list. -/
theorem key_lists_inverse {i : Interp} {l : ListId} {keys : List String}
    (hkeys : i.store.IsKeyList l keys) (target : BindingTarget) :
    (∀ rest vs : List Value, vs.length = keys.length →
      ∃ i', target.Binds i i' (keys.zip vs) ∧
        primitive target.word (i.withStack (rest ++ vs ++ [.list l])) =
          (.ok .done, i'.withStack rest) ∧
        (∀ key ∈ keys,
          i'.lookup? key = (target.covering i key).or ((keys.zip vs).lookup key)) ∧
        ∃ us : List Value, us.map some = keys.map i'.lookup? ∧
          (∀ l', i.store.IsKeyList l' keys → primitive .get (i'.withStack (rest ++ [.list l'])) =
            (.ok .done, i'.withStack (rest ++ us))) ∧
          (keys.Nodup → (∀ key ∈ keys, target.covering i key = none) → us = vs)) ∧
    ∀ vs : List Value, vs.length < keys.length →
      ∃ i', target.Binds i i' ((keys.drop (keys.length - vs.length)).zip vs) ∧
        primitive target.word (i.withStack (vs ++ [.list l])) =
          (.error .stackUnderflow, i'.withStack []) := by
  refine ⟨fun rest vs hlength => ?_, fun vs hlength => word_underflows target hkeys hlength⟩
  obtain ⟨i', hbinds, hword⟩ := word_binds target rest hkeys hlength
  have hmeans : ∀ key ∈ keys,
      i'.lookup? key = (target.covering i key).or ((keys.zip vs).lookup key) :=
    fun key hkey => hbinds.lookup? (isSome_lookup_zip hlength hkey)
  have hmeant : ∀ key ∈ keys, (i'.lookup? key).isSome = true := fun key hkey => by
    rw [hmeans key hkey, Option.isSome_or, isSome_lookup_zip hlength hkey, Bool.or_true]
  obtain ⟨us, hus⟩ := exists_map_some hmeant
  refine ⟨i', hbinds, hword, hmeans, us, hus, fun l' hl' => ?_, fun hd hbare => ?_⟩
  · rw [← hbinds.store] at hl'
    exact get_apply hl' hus.symm
  · have hsame : us.map some = vs.map some := by
      rw [hus, ← map_lookup_zip hlength hd]
      refine List.map_congr_left fun key hkey => ?_
      rw [hmeans key hkey, hbare key hkey, Option.none_or]
    exact (List.map_inj_right fun _ _ => Option.some.inj).1 hsame

/-- A symbol and a text, put and got, above an operand that stays. -/
theorem key_lists_inverse_of_mixedKeys :
    let i : Interp := { (default : Interp) with
      store := { lists := #[#[.symbol "a", .text "b"]] }
      stack := ⟨#[.integer 7, .integer 1, .integer 2, .list ⟨0⟩]⟩ }
    i.store.IsKeyList ⟨0⟩ ["a", "b"] ∧
      ∃ i' : Interp, i'.lookup? "a" = some (.integer 1) ∧
        primitive .put i = (.ok .done, i'.withStack [.integer 7]) ∧
        primitive .get (i'.withStack [.integer 7, .list ⟨0⟩]) =
          (.ok .done, i'.withStack [.integer 7, .integer 1, .integer 2]) := by
  intro i
  have hkeys : i.store.IsKeyList ⟨0⟩ ["a", "b"] := rfl
  obtain ⟨i', -, hput, hmeans, us, -, hget, hsame⟩ :=
    (key_lists_inverse hkeys .put).1 [.integer 7] [.integer 1, .integer 2] rfl
  obtain rfl := hsame (by decide) fun _ _ => rfl
  rw [← withStack_self i]
  exact ⟨hkeys, i', hmeans "a" (by decide), hput, hget ⟨0⟩ hkeys⟩

end WordStack
