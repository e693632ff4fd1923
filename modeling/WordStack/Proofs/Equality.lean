import Mathlib
import WordStack.Store.Equal

/-!
# Equality as a relation

What it means that two values are equal, apart from how deep lists are followed. At each level lists
are compared by the level before (`EqualBy`), so the levels are equivalences of lists that get
coarser. Each step that changes anything merges two classes of the lists that the store knows, so
from the level that is used on nothing changes any more (`Store.settled_deep`). Therefore two lists
are equal exactly when they are the same list or have equal elements, in every store
(`Store.equal_list_iff`), and equality is symmetric and transitive, with NaN as the only value that
is not equal to itself (`Store.equal_partial_equivalence`).
-/

namespace WordStack

/-- The kinds of values. A type and an object of the host are both handles, of one kind. -/
inductive ValueKind where
  | integer
  | float
  | boolean
  | text
  | symbol
  | list
  | action
  | handle
  | callback
  deriving DecidableEq, Repr

namespace Value

def kind : Value → ValueKind
  | integer _ => .integer
  | float _ => .float
  | boolean _ => .boolean
  | text _ => .text
  | symbol _ => .symbol
  | list _ => .list
  | action _ => .action
  | hostType _ | object _ => .handle
  | callback _ => .callback

/-- The value is a double that is no number. -/
def isNaN : Value → Bool
  | float x => x.isNaN
  | _ => false

end Value

/-! ## Doubles -/

theorem float_beq_comm {x y : Float} (h : (x == y) = true) : (y == x) = true := by
  rw [Float.beq_iff_ne_nan_and_eq] at h ⊢
  tauto

theorem float_beq_trans {x y z : Float} (hxy : (x == y) = true) (hyz : (y == z) = true) :
    (x == z) = true := by
  have hzero : (0 : Float) ≠ -0 := by decide
  rw [Float.beq_iff_ne_nan_and_eq] at hxy hyz ⊢
  grind

theorem float_beq_self_iff {x : Float} : (x == x) = true ↔ x.isNaN = false := by
  rw [Float.beq_self_iff, Float.isNaN_eq_decide_eq_nan, decide_eq_false_iff_not]

/-! ## Values, given what lists are equal -/

/-- Two values are equal where `lists` says which lists are. -/
inductive EqualBy (lists : ListId → ListId → Prop) : Value → Value → Prop
  | integer (n : Int64) : EqualBy lists (.integer n) (.integer n)
  | float {x y : Float} (h : (x == y) = true) : EqualBy lists (.float x) (.float y)
  | boolean (b : Bool) : EqualBy lists (.boolean b) (.boolean b)
  | text (t : String) : EqualBy lists (.text t) (.text t)
  | symbol (name : String) : EqualBy lists (.symbol name) (.symbol name)
  | list {a b : ListId} (h : lists a b) : EqualBy lists (.list a) (.list b)
  | action (a : Action) : EqualBy lists (.action a) (.action a)
  | hostType (type : HostType) : EqualBy lists (.hostType type) (.hostType type)
  | object {o p : HostObject} (h : o.index = p.index) : EqualBy lists (.object o) (.object p)
  | callback {c d : Callback} (h : c.index = d.index) : EqualBy lists (.callback c) (.callback d)

namespace EqualBy

variable {lists lists' : ListId → ListId → Prop} {u v w : Value}

theorem symm (hl : ∀ a b, lists a b → lists b a) (h : EqualBy lists u v) : EqualBy lists v u := by
  cases h with
  | float h => exact .float (float_beq_comm h)
  | list h => exact .list (hl _ _ h)
  | object h => exact .object h.symm
  | callback h => exact .callback h.symm
  | _ => constructor

theorem trans (hl : ∀ a b c, lists a b → lists b c → lists a c) (h : EqualBy lists u v)
    (h' : EqualBy lists v w) : EqualBy lists u w := by
  cases h with
  | float h => cases h' with | float h' => exact .float (float_beq_trans h h')
  | list h => cases h' with | list h' => exact .list (hl _ _ _ h h')
  | object h => cases h' with | object h' => exact .object (h.trans h')
  | callback h => cases h' with | callback h' => exact .callback (h.trans h')
  | _ => exact h'

theorem imp (hl : ∀ a b, lists a b → lists' a b) (h : EqualBy lists u v) : EqualBy lists' u v := by
  cases h with
  | list h => exact .list (hl _ _ h)
  | float h => exact .float h
  | object h => exact .object h
  | callback h => exact .callback h
  | _ => constructor

/-- Only NaN is not equal to itself. -/
theorem self_iff (hl : ∀ a, lists a a) : EqualBy lists v v ↔ v.isNaN = false := by
  cases v with
  | float x =>
    rw [Value.isNaN, ← float_beq_self_iff]
    exact ⟨fun h => by cases h; assumption, .float⟩
  | list l => exact ⟨fun _ => rfl, fun _ => .list (hl l)⟩
  | object o => exact ⟨fun _ => rfl, fun _ => .object rfl⟩
  | callback c => exact ⟨fun _ => rfl, fun _ => .callback rfl⟩
  | _ => exact ⟨fun _ => rfl, fun _ => by constructor⟩

theorem kind_eq (h : EqualBy lists u v) : u.kind = v.kind := by
  cases h <;> rfl

end EqualBy

theorem pairwiseEqual_iff {eq : Value → Value → Bool} {us vs : List Value} :
    pairwiseEqual eq us vs = true ↔ List.Forall₂ (fun u v => eq u v = true) us vs := by
  induction us generalizing vs with
  | nil => cases vs <;> simp [pairwiseEqual]
  | cons u us ih => cases vs <;> simp [pairwiseEqual, ih]

theorem forall₂_trans {α : Type} {R : α → α → Prop} (hR : ∀ a b c, R a b → R b c → R a c)
    {as bs cs : List α} (h : List.Forall₂ R as bs) (h' : List.Forall₂ R bs cs) :
    List.Forall₂ R as cs := by
  induction h generalizing cs with
  | nil => exact h'
  | cons hab _ ih =>
    cases h' with
    | cons hbc htail => exact .cons (hR _ _ _ hab hbc) (ih htail)

/-- A coarser division of finitely many things has fewer classes. -/
theorem card_quotient_lt {α : Type} [Finite α] {r r' : Setoid α} (h : r < r') :
    Nat.card (Quotient r') < Nat.card (Quotient r) := by
  let f : Quotient r → Quotient r' := Quotient.map' id h.le
  have hf : Function.Surjective f := Quotient.ind fun a => ⟨Quotient.mk r a, rfl⟩
  refine lt_of_not_ge fun hle => h.not_ge fun a b hab => ?_
  have hinj := (hf.bijective_of_nat_card_le hle).injective
  exact Quotient.exact (hinj (Quotient.sound hab : f (Quotient.mk r a) = f (Quotient.mk r b)))

namespace Store

variable (s : Store)

/-! ## Levels -/

/-- The lists are equal as far as `n` levels show. -/
def EqualLists (n : Nat) (a b : ListId) : Prop := s.equalTo n (.list a) (.list b) = true

theorem equalTo_iff {n : Nat} {u v : Value} :
    s.equalTo n u v = true ↔ EqualBy (s.EqualLists n) u v := by
  constructor
  · intro h
    cases u <;> cases v <;> first | exact .list h | simp [equalTo] at h
    case integer.integer => exact h ▸ .integer _
    case float.float => exact .float h
    case boolean.boolean => exact h ▸ .boolean _
    case text.text => exact h ▸ .text _
    case symbol.symbol => exact h ▸ .symbol _
    case action.action => exact h ▸ .action _
    case hostType.hostType => exact h ▸ .hostType _
    case object.object => exact .object h
    case callback.callback => exact .callback h
  · intro h
    cases h with
    | list h => exact h
    | float h => simpa [equalTo] using h
    | object h => simpa [equalTo] using h
    | callback h => simpa [equalTo] using h
    | _ => simp [equalTo]

@[simp] theorem equalLists_zero {a b : ListId} : s.EqualLists 0 a b ↔ a = b := by
  simp [EqualLists, equalTo]

theorem equalLists_succ {n : Nat} {a b : ListId} :
    s.EqualLists (n + 1) a b ↔
      a = b ∨ List.Forall₂ (EqualBy (s.EqualLists n)) (s.items a).toList (s.items b).toList := by
  simp only [EqualLists, equalTo, Bool.or_eq_true, beq_iff_eq, pairwiseEqual_iff, equalTo_iff]

theorem EqualLists.refl (n : Nat) (a : ListId) : s.EqualLists n a a := by
  cases n with
  | zero => rw [equalLists_zero]
  | succ n => exact s.equalLists_succ.2 (.inl rfl)

variable {s}

theorem EqualLists.symm {n : Nat} {a b : ListId} (h : s.EqualLists n a b) :
    s.EqualLists n b a := by
  induction n generalizing a b with
  | zero => simpa [eq_comm] using h
  | succ n ih =>
    rw [equalLists_succ] at h ⊢
    exact h.imp Eq.symm fun h => (h.imp fun _ _ huv => huv.symm fun _ _ => ih).flip

theorem EqualLists.trans {n : Nat} {a b c : ListId} (hab : s.EqualLists n a b)
    (hbc : s.EqualLists n b c) : s.EqualLists n a c := by
  induction n generalizing a b c with
  | zero =>
    rw [equalLists_zero] at hab hbc ⊢
    exact hab.trans hbc
  | succ n ih =>
    rcases s.equalLists_succ.1 hab with rfl | hab
    · exact hbc
    rcases s.equalLists_succ.1 hbc with rfl | hbc
    · exact s.equalLists_succ.2 (.inr hab)
    exact s.equalLists_succ.2
      (.inr (forall₂_trans (fun _ _ _ h h' => h.trans (fun _ _ _ => ih) h') hab hbc))

/-- What is equal on one level is equal on the next one. -/
theorem EqualLists.succ {n : Nat} {a b : ListId} (h : s.EqualLists n a b) :
    s.EqualLists (n + 1) a b := by
  induction n generalizing a b with
  | zero => exact s.equalLists_succ.2 (.inl (s.equalLists_zero.1 h))
  | succ n ih =>
    rw [equalLists_succ] at h ⊢
    exact h.imp_right fun h => h.imp fun _ _ huv => huv.imp fun _ _ => ih

/-! ## The level from which on nothing changes -/

variable (s) in
/-- The next level shows no more lists to be equal than level `n`. -/
def Settled (n : Nat) : Prop := ∀ a b, s.EqualLists (n + 1) a b → s.EqualLists n a b

theorem Settled.succ {n : Nat} (h : s.Settled n) : s.Settled (n + 1) := by
  intro a b hab
  rw [equalLists_succ] at hab ⊢
  exact hab.imp_right fun hab => hab.imp fun _ _ huv => huv.imp h

/-- A list without elements is settled on the first level. -/
theorem equalLists_of_not_live {n : Nat} {a b : ListId} (ha : ¬ s.Live a)
    (h : s.EqualLists (n + 2) a b) : s.EqualLists (n + 1) a b := by
  have hnone : s.items a = #[] := by
    have hsize : s.lists.size ≤ a.index := Nat.le_of_not_lt ha
    simp [items, hsize]
  rw [equalLists_succ, hnone] at h ⊢
  exact h.imp_right fun h => by
    rw [List.forall₂_nil_left_iff.1 h]
    exact .nil

variable (s) in
/-- The lists that the store knows, divided by what is equal on a level. -/
def levelSetoid (n : Nat) : Setoid (Fin s.lists.size) where
  r i j := s.EqualLists n ⟨i⟩ ⟨j⟩
  iseqv := ⟨fun i => .refl s n ⟨i⟩, .symm, .trans⟩

/-- A level that is not settled merges two classes of lists. -/
theorem levelSetoid_lt {n : Nat} (h : ¬ s.Settled (n + 1)) :
    s.levelSetoid (n + 1) < s.levelSetoid (n + 1 + 1) := by
  refine lt_of_le_not_ge (fun i j hij => hij.succ) fun hge => h fun a b hab => ?_
  by_cases ha : s.Live a
  · by_cases hb : s.Live b
    · exact @hge ⟨a.index, ha⟩ ⟨b.index, hb⟩ hab
    · exact (equalLists_of_not_live hb hab.symm).symm
  · exact equalLists_of_not_live ha hab

variable (s) in
/-- Each level that is not settled has left one class less. -/
theorem settled_or_card_le (n : Nat) :
    s.Settled n ∨ Nat.card (Quotient (s.levelSetoid (n + 1))) + n ≤ s.lists.size := by
  induction n with
  | zero =>
    right
    have hle := Nat.card_le_card_of_surjective _ (Quotient.mk_surjective (s := s.levelSetoid 1))
    simpa using hle
  | succ n ih =>
    by_cases h : s.Settled (n + 1)
    · exact .inl h
    · have hlt := card_quotient_lt (levelSetoid_lt h)
      rcases ih with hsettled | hle
      · exact absurd hsettled.succ h
      · exact .inr (by omega)

variable (s) in
/-- The level on which values are compared is deep enough. -/
theorem settled_deep : s.Settled (s.lists.size + 1) := by
  rcases s.settled_or_card_le (s.lists.size + 1) with h | h
  · exact h
  · omega

/-! ## Equality -/

variable (s) in
/-- The lists are equal as values. -/
def SameList (a b : ListId) : Prop := s.equal (.list a) (.list b) = true

theorem equal_iff {u v : Value} : s.equal u v = true ↔ EqualBy s.SameList u v := s.equalTo_iff

/-- Lists are equal if they are one list or if their elements are equal one by one. -/
theorem sameList_iff {a b : ListId} :
    s.SameList a b ↔
      a = b ∨ List.Forall₂ (EqualBy s.SameList) (s.items a).toList (s.items b).toList := by
  rw [← show s.EqualLists (s.lists.size + 1 + 1) a b ↔ s.SameList a b from
    ⟨s.settled_deep a b, EqualLists.succ⟩]
  exact s.equalLists_succ

theorem forall₂_toList_iff {R : Value → Value → Prop} {us vs : Array Value} :
    List.Forall₂ R us.toList vs.toList ↔
      us.size = vs.size ∧ ∀ i (hu : i < us.size) (hv : i < vs.size), R us[i] vs[i] := by
  simp [List.forall₂_iff_get]

variable (s) in
/-- The lists have the same length and equal elements in each place. -/
def SameElements (a b : ListId) : Prop :=
  (s.items a).size = (s.items b).size ∧
    ∀ i (ha : i < (s.items a).size) (hb : i < (s.items b).size),
      s.equal (s.items a)[i] (s.items b)[i] = true

theorem sameList_iff_elements {a b : ListId} : s.SameList a b ↔ a = b ∨ s.SameElements a b := by
  rw [sameList_iff, forall₂_toList_iff]
  simp only [SameElements, equal_iff]

/-- Different lists are equal if they have the same length and equal elements. -/
theorem equal_list_iff {a b : ListId} (h : a ≠ b) :
    s.equal (.list a) (.list b) = true ↔ s.SameElements a b :=
  sameList_iff_elements.trans (or_iff_right h)

/-- The whole of equality. -/
theorem equal_iff_elements {u v : Value} :
    s.equal u v = true ↔ EqualBy (fun a b => a = b ∨ s.SameElements a b) u v := by
  rw [equal_iff]
  exact ⟨fun h => h.imp fun _ _ => sameList_iff_elements.1,
    fun h => h.imp fun _ _ => sameList_iff_elements.2⟩

theorem equal_self_iff {v : Value} : s.equal v v = true ↔ v.isNaN = false :=
  equal_iff.trans (EqualBy.self_iff (EqualLists.refl s _))

theorem equal_symm {u v : Value} (h : s.equal u v = true) : s.equal v u = true :=
  equal_iff.2 ((equal_iff.1 h).symm fun _ _ => EqualLists.symm)

theorem equal_trans {u v w : Value} (huv : s.equal u v = true) (hvw : s.equal v w = true) :
    s.equal u w = true :=
  equal_iff.2 ((equal_iff.1 huv).trans (fun _ _ _ => EqualLists.trans) (equal_iff.1 hvw))

/-! ## Copies -/

theorem items_addList_nextList (vs : Array Value) : (s.addList vs).items s.nextList = vs :=
  s.items_newList_fst vs

theorem items_addList_of_ne {vs : Array Value} {l : ListId} (h : l ≠ s.nextList) :
    (s.addList vs).items l = s.items l := by
  by_cases hl : s.Live l
  · exact items_newList_of_live hl
  · have hindex : l.index ≠ s.lists.size := fun he => h (congrArg ListId.mk he)
    have hsize : s.lists.size < l.index := by
      have hle : s.lists.size ≤ l.index := Nat.le_of_not_lt hl
      omega
    simp [items, addList, Array.getElem?_push, hindex, hsize.le]

/-- A new list with the elements of `l` is equal to `l` where each element is equal to itself. -/
theorem equal_copy_iff {l : ListId} :
    (s.addList (s.items l)).equal (.list s.nextList) (.list l) = true ↔
      ∀ v ∈ s.items l, v.isNaN = false := by
  by_cases h : l = s.nextList
  · have hnone : s.items s.nextList = #[] := by simp [items, nextList]
    subst h
    rw [hnone]
    exact iff_of_true (equal_self_iff.2 rfl) (by simp)
  · rw [equal_list_iff (Ne.symm h), SameElements, items_addList_nextList, items_addList_of_ne h]
    simp only [equal_self_iff, true_and]
    constructor
    · intro hall v hv
      obtain ⟨i, hi, rfl⟩ := Array.mem_iff_getElem.1 hv
      exact hall i hi hi
    · intro hall i hi _
      exact hall _ (Array.getElem_mem hi)

/-! ## The relation -/

variable (s) in
/-- Equality of values is symmetric and transitive. A value is equal to itself unless it is NaN,
also a list with NaN somewhere inside of it; but a copy of a list is equal to the list only if none
of the elements is NaN. Two lists are equal if they have the same length and equal elements in each
place, and values of different kinds are never equal. -/
theorem equal_partial_equivalence :
    (∀ u v, s.equal u v = s.equal v u) ∧
    (∀ u v w, s.equal u v = true → s.equal v w = true → s.equal u w = true) ∧
    (∀ v, s.equal v v = true ↔ v.isNaN = false) ∧
    (∀ l, (s.addList (s.items l)).equal (.list s.nextList) (.list l) = true ↔
      ∀ v ∈ s.items l, v.isNaN = false) ∧
    (∀ a b, a ≠ b → (s.equal (.list a) (.list b) = true ↔ s.SameElements a b)) ∧
    ∀ u v, u.kind ≠ v.kind → s.equal u v = false := by
  refine ⟨fun u v => Bool.eq_iff_iff.2 ⟨equal_symm, equal_symm⟩, fun u v w => equal_trans,
    fun v => equal_self_iff, fun l => equal_copy_iff, fun a b => equal_list_iff, fun u v hne => ?_⟩
  rw [← Bool.not_eq_true]
  exact fun h => hne (equal_iff.1 h).kind_eq

/-- Lists that hold NaN, and a list that holds one of them: each is equal to itself alone. -/
example :
    let s : Store := { lists := #[#[.float (0.0 / 0.0)], #[.float (0.0 / 0.0)], #[.list ⟨0⟩]] }
    s.equal (.list ⟨0⟩) (.list ⟨0⟩) = true ∧ s.equal (.list ⟨0⟩) (.list ⟨1⟩) = false ∧
      (s.addList #[.list ⟨0⟩]).equal (.list ⟨3⟩) (.list ⟨2⟩) = true := by
  decide

end Store

end WordStack
