import Mathlib.Data.List.Forall2
import Mathlib.Data.List.Induction
import Mathlib.Data.List.Infix
import Mathlib.Data.List.Nodup
import WordStack.Proofs.Bindings

/-!
# Scopes as what has been written

What a name means, told by what has happened and not by what scopes hold. A `ScopeHistory` numbers
the scopes in the order in which they have begun, knows which of them are still open, and forgets
nothing that has been written to any of them. Whatever is done to a single empty scope, a name means
what was written last to the innermost open scope that it was written to (`Recalls.meaning`). And
what is done inside of a scope leaves no trace outside: leaving the scope gives back what there was
before (`leave_of_balanced`).
-/

namespace WordStack

/-! ## Operations -/

/-- What can be done to scopes. -/
inductive ScopeOp where
  | enter
  | leave
  | reset
  | add (name : String) (v : Value)
  | set (name : String) (v : Value)
  | get (name : String)
  | contains (name : String)

namespace ScopeOp

def enters : ScopeOp → Bool
  | enter => true
  | _ => false

def leaves : ScopeOp → Bool
  | leave => true
  | _ => false

def resets : ScopeOp → Bool
  | reset => true
  | _ => false

/-- Operations that stay inside of the scope in which they begin, and end there: at no point more
scopes have been left than entered, and at the end as many. -/
structure Balanced (ops : List ScopeOp) : Prop where
  inside : ∀ front, front <+: ops → front.countP leaves ≤ front.countP enters
  settled : ops.countP leaves = ops.countP enters
  kept : ∀ op ∈ ops, op.resets = false

end ScopeOp

namespace Scopes

/-- The scopes after an operation; a name that cannot be added leaves them as they are. -/
def perform (b : Scopes) : ScopeOp → Scopes
  | .enter => b.enter
  | .leave => b.leave
  | .reset => b.reset
  | .add name v =>
    match b.add name v with
    | .ok b' => b'
    | .error _ => b
  | .set name v => b.set name v
  | .get _ | .contains _ => b

/-- The scopes after a row of operations. -/
def performAll (b : Scopes) (ops : List ScopeOp) : Scopes := ops.foldl perform b

variable {b b' : Scopes}

theorem performAll_concat (b : Scopes) (ops : List ScopeOp) (op : ScopeOp) :
    b.performAll (ops ++ [op]) = (b.performAll ops).perform op := by
  rw [performAll, List.foldl_append]
  rfl

theorem perform_add (name : String) (v : Value) : b.perform (.add name v) =
    if b.innermost.own.contains name then b else b.set name v := by
  by_cases h : b.innermost.own.contains name = true <;> simp [perform, add, h]

/-! ## Scopes around the operations -/

/-- What is neither an entry nor a leave nor a reset stays in the innermost scope. -/
theorem perform_outer {op : ScopeOp} (he : op.enters = false) (hl : op.leaves = false)
    (hr : op.resets = false) : (b.perform op).outer = b.outer := by
  cases op with
  | enter => cases he
  | leave => cases hl
  | reset => cases hr
  | add name v =>
    rw [perform_add]
    split <;> rfl
  | set name v => rfl
  | get name => rfl
  | contains name => rfl

/-- The scopes `outer` are still around those that have been entered and not left since. -/
def Around (outer : Array ScopeLevel) (b : Scopes) (ops : List ScopeOp) : Prop :=
  ∃ inner : List ScopeLevel, b.outer.toList = outer.toList ++ inner ∧
    inner.length + ops.countP ScopeOp.leaves = ops.countP ScopeOp.enters

theorem around_performAll (b : Scopes) {ops : List ScopeOp}
    (hinside : ∀ front, front <+: ops →
      front.countP ScopeOp.leaves ≤ front.countP ScopeOp.enters)
    (hkept : ∀ op ∈ ops, op.resets = false) : Around b.outer (b.performAll ops) ops := by
  induction ops using List.reverseRecOn with
  | nil => exact ⟨[], by simp [performAll], rfl⟩
  | append_singleton ops op ih =>
    obtain ⟨inner, houter, hcount⟩ := ih
      (fun front hfront => hinside front (hfront.trans (List.prefix_append ops [op])))
      fun op hop => hkept op (by simp [hop])
    have hall := hinside _ (List.prefix_refl _)
    rw [List.countP_append, List.countP_append] at hall
    rw [performAll_concat, Around, List.countP_append, List.countP_append]
    cases op with
    | enter =>
      refine ⟨inner ++ [(b.performAll ops).innermost], ?_, ?_⟩
      · simp [perform, enter, houter]
      · simp [ScopeOp.enters, ScopeOp.leaves] at hall ⊢
        omega
    | leave =>
      simp [ScopeOp.enters, ScopeOp.leaves] at hall
      have hne : inner ≠ [] := List.ne_nil_of_length_pos (by omega)
      refine ⟨inner.dropLast, ?_, ?_⟩
      · rw [perform, leave_outer, Array.toList_pop, houter, List.dropLast_append_of_ne_nil hne]
      · have hpos := List.length_pos_iff.2 hne
        simp [ScopeOp.enters, ScopeOp.leaves]
        omega
    | reset => cases hkept .reset (by simp)
    | add | set | get | contains =>
      refine ⟨inner, ?_, ?_⟩
      · rw [perform_outer rfl rfl rfl, houter]
      · simpa [ScopeOp.enters, ScopeOp.leaves] using hcount

/-- To leave a scope is to have what was there when it was entered, whatever was done inside. -/
theorem leave_of_balanced (b : Scopes) {ops : List ScopeOp} (h : ScopeOp.Balanced ops) :
    (b.enter.performAll ops).leave = b := by
  obtain ⟨inner, houter, hcount⟩ := b.enter.around_performAll h.inside h.kept
  have hnil : inner = [] := List.eq_nil_of_length_eq_zero (by have := h.settled; omega)
  subst hnil
  refine leave_eq (Array.toList_inj.1 ?_)
  rw [houter, List.append_nil]
  rfl

/-! ## Operations seen from the innermost scope out -/

theorem innermostFirst_eq (b : Scopes) :
    b.innermostFirst = b.innermost.own :: b.outer.toList.reverse.map (·.own) := rfl

theorem innermostFirst_enter (b : Scopes) : b.enter.innermostFirst = {} :: b.innermostFirst := by
  simp [innermostFirst, enter]

theorem innermostFirst_set (b : Scopes) (name : String) (v : Value) :
    (b.set name v).innermostFirst =
      b.innermost.own.insert name v :: b.outer.toList.reverse.map (·.own) := rfl

/-- Leaving takes away the first scope, unless it is the last one. -/
theorem innermostFirst_leave (b : Scopes) : b.leave.innermostFirst =
    match b.innermostFirst with
    | _ :: scope :: around => scope :: around
    | scopes => scopes := by
  unfold leave
  split
  · next level h =>
    obtain ⟨rest, hrest⟩ := Array.back?_eq_some_iff.1 h
    simp [innermostFirst, hrest]
  · next h =>
    have hnil : b.outer = #[] := Array.back?_eq_none_iff.1 h
    simp [innermostFirst, hnil]

end Scopes

/-! ## Histories -/

/-- What has been done to scopes, of which each has a number. -/
structure ScopeHistory where
  /-- How many scopes have begun. -/
  begun : Nat := 1
  /-- The scopes that are open, the innermost first. -/
  opened : List Nat := [0]
  /-- Every binding that has been made, the latest first, with the scope that it was made in. -/
  written : List (Nat × String × Value) := []

namespace ScopeHistory

/-- What was written last under a name to a scope. -/
def last? (h : ScopeHistory) (scope : Nat) (name : String) : Option Value :=
  (h.written.find? fun w => w.1 == scope && w.2.1 == name).map (·.2.2)

/-- The name has been written to the innermost scope. -/
def holds (h : ScopeHistory) (name : String) : Bool :=
  h.opened.head?.any fun scope => (h.last? scope name).isSome

/-- What was written last to the innermost open scope that holds the name. -/
def meaning (h : ScopeHistory) (name : String) : Option Value :=
  h.opened.findSome? fun scope => h.last? scope name

/-- Write to the innermost scope. -/
def write (h : ScopeHistory) (name : String) (v : Value) : ScopeHistory :=
  { h with written := (h.opened.head?.map fun scope => (scope, name, v)).toList ++ h.written }

/-- Note an operation. A scope that has been left, or that a reset has cleared, is not open any
more, and the outermost one is left by a reset alone. A name is added where it has not been
written to the innermost scope. -/
def note (h : ScopeHistory) : ScopeOp → ScopeHistory
  | .enter => { h with begun := h.begun + 1, opened := h.begun :: h.opened }
  | .leave =>
    match h.opened with
    | _ :: scope :: around => { h with opened := scope :: around }
    | _ => h
  | .reset => { h with begun := h.begun + 1, opened := [h.begun] }
  | .add name v => if h.holds name then h else h.write name v
  | .set name v => h.write name v
  | .get _ | .contains _ => h

/-- The history of operations on a single empty scope. -/
def ofOps (ops : List ScopeOp) : ScopeHistory := ops.foldl note {}

theorem ofOps_concat (ops : List ScopeOp) (op : ScopeOp) :
    ofOps (ops ++ [op]) = (ofOps ops).note op := by
  rw [ofOps, List.foldl_append]
  rfl

/-! ## What a history recalls -/

variable {h : ScopeHistory} {b : Scopes} {scope : Nat} {around : List Nat} {name : String}
  {v : Value}

/-- The history recalls the scopes: those that are open hold what was written last to them. The
number of the next scope is new. -/
structure Recalls (h : ScopeHistory) (b : Scopes) : Prop where
  scopes : List.Forall₂ (fun n (scope : Scope) => ∀ name : String, scope[name]? = h.last? n name)
    h.opened b.innermostFirst
  distinct : h.opened.Nodup
  numbered : ∀ n ∈ h.opened, n < h.begun
  known : ∀ w ∈ h.written, w.1 < h.begun

theorem recalls_empty : Recalls {} {} where
  scopes := by
    refine .cons (fun name => ?_) .nil
    simp [last?]
  distinct := by simp
  numbered := by simp
  known := by simp

theorem last?_of_new (hk : ∀ w ∈ h.written, w.1 < h.begun) (name : String) :
    h.last? h.begun name = none := by
  have hnone : (h.written.find? fun w => w.1 == h.begun && w.2.1 == name) = none := by
    refine List.find?_eq_none.2 fun w hw => ?_
    have := hk w hw
    simp only [Bool.and_eq_true, beq_iff_eq, not_and]
    omega
  rw [last?, hnone, Option.map_none]

theorem last?_write (hopen : h.opened = scope :: around) (n : Nat) (other : String) :
    (h.write name v).last? n other =
      if scope = n ∧ name = other then some v else h.last? n other := by
  simp only [last?, write, hopen, List.head?_cons, Option.map_some, Option.toList_some,
    List.singleton_append, List.find?_cons]
  by_cases hw : scope = n ∧ name = other
  · simp [hw]
  · have hne : (scope == n && name == other) = false := by simpa using hw
    simp [hw, hne]

theorem Recalls.exists_opened (hr : h.Recalls b) : ∃ scope around, h.opened = scope :: around ∧
    (∀ name : String, b.innermost.own[name]? = h.last? scope name) ∧
    List.Forall₂ (fun n (scope : Scope) => ∀ name : String, scope[name]? = h.last? n name)
      around (b.outer.toList.reverse.map (·.own)) := by
  have hs := hr.scopes
  rw [Scopes.innermostFirst_eq] at hs
  rcases hopen : h.opened with _ | ⟨scope, around⟩
  · rw [hopen] at hs
    cases hs
  · rw [hopen] at hs
    obtain ⟨hown, haround⟩ := List.forall₂_cons.1 hs
    exact ⟨scope, around, rfl, hown, haround⟩

theorem Recalls.holds_eq (hr : h.Recalls b) (name : String) :
    h.holds name = b.innermost.own.contains name := by
  obtain ⟨scope, around, hopen, hown, -⟩ := hr.exists_opened
  rw [holds, hopen, List.head?_cons, Option.any_some, ← hown name,
    Std.TreeMap.isSome_getElem?_eq_contains]

theorem Recalls.enter (hr : h.Recalls b) : (h.note .enter).Recalls b.enter where
  scopes := by
    rw [Scopes.innermostFirst_enter]
    refine .cons (fun name => ?_) hr.scopes
    have hnew : (h.note .enter).last? h.begun name = none := last?_of_new hr.known name
    simp [hnew]
  distinct := by
    refine List.nodup_cons.2 ⟨fun hmem => ?_, hr.distinct⟩
    exact Nat.lt_irrefl _ (hr.numbered _ hmem)
  numbered := List.forall_mem_cons.2
    ⟨Nat.lt_succ_self _, fun n hn => Nat.lt_succ_of_lt (hr.numbered n hn)⟩
  known w hw := Nat.lt_succ_of_lt (hr.known w hw)

theorem Recalls.reset (hr : h.Recalls b) : (h.note .reset).Recalls b.reset where
  scopes := by
    have hempty : b.reset.innermostFirst = [{}] := rfl
    rw [hempty]
    refine .cons (fun name => ?_) .nil
    have hnew : (h.note .reset).last? h.begun name = none := last?_of_new hr.known name
    simp [hnew]
  distinct := List.nodup_singleton _
  numbered := List.forall_mem_singleton.2 (Nat.lt_succ_self _)
  known w hw := Nat.lt_succ_of_lt (hr.known w hw)

theorem Recalls.leave (hr : h.Recalls b) : (h.note .leave).Recalls b.leave := by
  obtain ⟨scope, around, hopen, -, haround⟩ := hr.exists_opened
  have hleave := b.innermostFirst_leave
  rw [b.innermostFirst_eq] at hleave
  rcases around with _ | ⟨next, around⟩
  · have hnil := List.forall₂_nil_left_iff.1 haround
    have hsame : b.leave.innermostFirst = b.innermostFirst := by
      rw [hleave, hnil, b.innermostFirst_eq, hnil]
    have hnote : h.note .leave = h := by simp [note, hopen]
    rw [hnote]
    exact ⟨by rw [hsame]; exact hr.scopes, hr.distinct, hr.numbered, hr.known⟩
  · obtain ⟨own, owns, hown, howns, hscopes⟩ := List.forall₂_cons_left_iff.1 haround
    have hnote : h.note .leave = { h with opened := next :: around } := by simp [note, hopen]
    have hd := hr.distinct
    have hn := hr.numbered
    rw [hopen] at hd hn
    rw [hnote]
    refine ⟨?_, (List.nodup_cons.1 hd).2, (List.forall_mem_cons.1 hn).2, hr.known⟩
    rw [hleave, hscopes]
    exact .cons hown howns

theorem Recalls.set (hr : h.Recalls b) (name : String) (v : Value) :
    (h.note (.set name v)).Recalls (b.set name v) := by
  obtain ⟨scope, around, hopen, hown, haround⟩ := hr.exists_opened
  have hd := hr.distinct
  have hn := hr.numbered
  rw [hopen] at hd hn
  refine ⟨?_, hr.distinct, hr.numbered, ?_⟩
  · have hsame : (h.note (.set name v)).opened = scope :: around := hopen
    rw [hsame, Scopes.innermostFirst_set]
    refine .cons (fun other => ?_) ?_
    · rw [note, last?_write hopen, ← hown other, Std.TreeMap.getElem?_insert]
      simp
    · have hother : ∀ n ∈ around, scope ≠ n := fun n hmem he =>
        (List.nodup_cons.1 hd).1 (he ▸ hmem)
      refine ((List.forall₂_and_left _ _).2 ⟨hother, haround⟩).imp fun n own hn other => ?_
      rw [note, last?_write hopen, if_neg fun he => hn.1 he.1, hn.2 other]
  · rw [note, write, hopen]
    exact List.forall_mem_cons.2 ⟨(List.forall_mem_cons.1 hn).1, hr.known⟩

theorem Recalls.note (hr : h.Recalls b) (op : ScopeOp) : (h.note op).Recalls (b.perform op) := by
  cases op with
  | enter => exact hr.enter
  | leave => exact hr.leave
  | reset => exact hr.reset
  | add name v =>
    rw [Scopes.perform_add, ← hr.holds_eq name, ScopeHistory.note]
    split
    · exact hr
    · exact hr.set name v
  | set name v => exact hr.set name v
  | get name => exact hr
  | contains name => exact hr

theorem recalls_performAll (ops : List ScopeOp) :
    (ofOps ops).Recalls (Scopes.performAll {} ops) := by
  induction ops using List.reverseRecOn with
  | nil => exact recalls_empty
  | append_singleton ops op ih =>
    rw [ofOps_concat, Scopes.performAll_concat]
    exact ih.note op

/-- A name means what has been written last to the innermost open scope that holds it. -/
theorem Recalls.meaning (hr : h.Recalls b) (name : String) : b.get? name = h.meaning name := by
  rw [Scopes.get?_eq_findSome?, ScopeHistory.meaning]
  have hs := hr.scopes
  generalize h.opened = opened at hs ⊢
  generalize b.innermostFirst = scopes at hs ⊢
  induction hs with
  | nil => rfl
  | cons hown _ ih => rw [List.findSome?_cons, List.findSome?_cons, hown name, ih]

theorem Recalls.depth_eq (hr : h.Recalls b) : b.depth = h.opened.length := by
  have hlength := hr.scopes.length_eq
  simp only [Scopes.innermostFirst_eq, List.length_cons, List.length_map, List.length_reverse,
    Array.length_toList] at hlength
  exact hlength.symm

/-- A name that the innermost scope holds is not added, and nothing changes; another one is. -/
theorem Recalls.add_eq (hr : h.Recalls b) (name : String) (v : Value) :
    if h.holds name then b.add name v = .error (.duplicate name) ∧ b.perform (.add name v) = b
    else b.add name v = .ok (b.set name v) := by
  rw [hr.holds_eq name]
  split
  · next hc => exact ⟨if_pos hc, by rw [Scopes.perform_add, if_pos hc]⟩
  · next hc => exact if_neg hc

end ScopeHistory

namespace Scopes

/-- What is done inside of a scope is gone when the scope is left: everything is as it was when the
scope was entered. Whatever is done, there is a scope, and a name means what was written last to
the innermost open scope that it was written to, or nothing. It cannot be added to a scope that it
was written to, and then nothing changes. -/
theorem operations_recalled :
    (∀ (b : Scopes) (ops : List ScopeOp), ScopeOp.Balanced ops →
      (b.enter.performAll ops).leave = b) ∧
    ∀ ops : List ScopeOp,
      let b := performAll {} ops
      let h := ScopeHistory.ofOps ops
      0 < b.depth ∧ b.depth = h.opened.length ∧
      (∀ name, b.get? name = h.meaning name ∧ b.contains name = (h.meaning name).isSome) ∧
      ∀ name v,
        if h.holds name then b.add name v = .error (.duplicate name) ∧ b.perform (.add name v) = b
        else b.add name v = .ok (b.set name v) := by
  refine ⟨fun b ops hops => b.leave_of_balanced hops, fun ops => ?_⟩
  intro b h
  have hr : h.Recalls b := ScopeHistory.recalls_performAll ops
  refine ⟨b.depth_pos, hr.depth_eq, fun name => ⟨hr.meaning name, ?_⟩, hr.add_eq⟩
  rw [contains, hr.meaning name]

/-- Inside of a scope a name is added twice, and set in one more scope. -/
theorem operations_recalled_of_shadowing :
    let ops : List ScopeOp :=
      [.add "a" (.integer 2), .add "a" (.integer 3), .enter, .set "a" (.integer 4), .leave,
        .get "a"]
    let b := Scopes.set {} "a" (.integer 1)
    ScopeOp.Balanced ops ∧ (b.enter.performAll ops).leave = b ∧
      (b.enter.performAll ops).get? "a" = some (.integer 2) := by
  intro ops b
  have hinside : ∀ front ∈ ops.inits,
      front.countP ScopeOp.leaves ≤ front.countP ScopeOp.enters := by decide
  have hops : ScopeOp.Balanced ops :=
    ⟨fun front h => hinside front ((List.mem_inits _ _).2 h), rfl, by decide⟩
  refine ⟨hops, operations_recalled.1 b ops hops, ?_⟩
  exact ((operations_recalled.2 (.set "a" (.integer 1) :: .enter :: ops)).2.2.1 "a").1

end Scopes

end WordStack
