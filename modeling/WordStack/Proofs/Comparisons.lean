import WordStack.Arithmetic
import WordStack.Proofs.Equality
import WordStack.Proofs.TextOrder

/-!
# The comparison words

Whether two operands can be compared, and what the answer is, is decided apart for each pair of
kinds. Which operators are defined depends on the kinds alone (`Operator.definedFor`); `equal` and
`not-equal` have opposite answers; on values of one kind `equal` is equality; and on integers and on
texts the six words describe a total order (`Operator.Orders`). All of it is together in
`Operator.comparisons_agree`.
-/

namespace WordStack

namespace Operator

/-- The operator is not made for these operands. -/
def Refuses (r : Except EvalError Value) : Prop := ∃ op operands, r = .error (.operandTypes op operands)

/-! ## Which operators are defined -/

/-- The six words that compare. -/
def comparisons : List Operator :=
  [.equal, .notEqual, .less, .lessOrEqual, .greater, .greaterOrEqual]

/-- The words that calculate with numbers. -/
def calculations : List Operator := [.add, .subtract, .multiply, .divide, .modulo]

/-- The operators for operands of these kinds. -/
def definedFor : ValueKind → ValueKind → List Operator
  | .integer, .integer =>
    calculations ++ comparisons ++ [.and, .or, .exclusiveOr, .leftShift, .rightShift]
  | .float, .float | .integer, .float | .float, .integer => calculations ++ comparisons
  | .boolean, .boolean => [.and, .or, .exclusiveOr, .equal, .notEqual]
  | .text, .text => .add :: comparisons
  | .text, _ | _, .text => [.add]
  | .symbol, .symbol | .list, .list | .handle, .handle => [.equal, .notEqual]
  | _, _ => []

variable {op : Operator} {s : Store} {u v : Value}

@[simp] theorem refuses_refuse : Refuses (op.refuse u v) := ⟨op, _, rfl⟩

@[simp] theorem not_refuses_ok {w : Value} : ¬ Refuses (.ok w) := by
  rintro ⟨op, operands, h⟩
  cases h

@[simp] theorem refuses_error_iff {e : EvalError} :
    Refuses (.error e) ↔ ∃ op operands, e = .operandTypes op operands := by
  simp [Refuses]

theorem not_refuses_exact {n : Int} : ¬ Refuses (op.exact n) := by
  unfold exact
  split <;> simp

theorem refuses_compareOr_iff {o : Ordering} : Refuses (op.compareOr o u v) ↔ op ∉ comparisons := by
  cases op <;> simp [compareOr, holds?, comparisons]

/-- What becomes of a result does not change whether there is one. -/
theorem refuses_map {r : Except EvalError Value} {f : Value → Value} :
    Refuses (r.map f) ↔ Refuses r := by
  cases r <;> simp [Except.map]

theorem refuses_onIntegers_iff {a b : Int64} :
    Refuses (op.onIntegers a b) ↔ op ∉ definedFor .integer .integer := by
  cases op with
  | divide | modulo =>
    simp only [onIntegers]
    split <;> simp [refuses_map, not_refuses_exact, definedFor, calculations]
  | _ =>
    simp [onIntegers, definedFor, calculations, comparisons, not_refuses_exact,
      refuses_compareOr_iff]

theorem refuses_onFloats_iff {a b : Float} :
    Refuses (op.onFloats a b) ↔ op ∉ definedFor .float .float := by
  cases op <;> simp [onFloats, definedFor, calculations, comparisons]

theorem refuses_onBooleans_iff {a b : Bool} :
    Refuses (op.onBooleans a b) ↔ op ∉ definedFor .boolean .boolean := by
  cases op <;> simp [onBooleans, definedFor]

theorem refuses_onEquality_iff :
    Refuses (op.onEquality s u v) ↔ op ∉ [Operator.equal, Operator.notEqual] := by
  cases op <;> simp [onEquality]

theorem refuses_joined_iff {t : String} {r : Except EvalError Value} (h : Refuses r) :
    Refuses (if op = .add then .ok (.text t) else r) ↔ op ∉ [Operator.add] := by
  split <;> simp_all

theorem refuses_onTexts_iff {a b : String} {o : Ordering} :
    Refuses (if op = .add then .ok (.text (a ++ b)) else op.compareOr o u v) ↔
      op ∉ definedFor .text .text := by
  split
  · next h => simp [h, definedFor]
  · next h => simp [refuses_compareOr_iff, definedFor, h]

/-- Whether an operator is defined depends on the kinds of its operands alone. -/
theorem refuses_binary_iff : Refuses (op.binary s u v) ↔ op ∉ definedFor u.kind v.kind := by
  cases u <;> cases v
  case integer.integer => exact refuses_onIntegers_iff
  case float.float => exact refuses_onFloats_iff
  case integer.float => exact refuses_onFloats_iff
  case float.integer => exact refuses_onFloats_iff
  case boolean.boolean => exact refuses_onBooleans_iff
  case text.text => exact refuses_onTexts_iff
  all_goals first
    | exact refuses_onEquality_iff
    | exact refuses_joined_iff refuses_refuse
    | simp [binary, onOthers, Value.isHandle, Value.kind, definedFor]

/-- The operators for one operand of this kind. -/
def definedForOne : ValueKind → List Operator
  | .integer => [.negate, .not, .onesComplement]
  | .float => [.negate]
  | .boolean => [.not]
  | _ => []

theorem refuses_unary_iff : Refuses (op.unary v) ↔ op ∉ definedForOne v.kind := by
  cases v with
  | integer n => cases op <;> simp [unary, definedForOne, Value.kind, not_refuses_exact]
  | float x => cases op <;> simp [unary, definedForOne, Value.kind]
  | boolean b => cases op <;> simp [unary, definedForOne, Value.kind]
  | _ => cases op <;> simp [unary, definedForOne, Value.kind]

/-! ## Equal and not equal -/

/-- The answers are truth values, one the negation of the other, or there are none. -/
inductive Opposite : Except EvalError Value → Except EvalError Value → Prop
  | answers (b : Bool) : Opposite (.ok (.boolean b)) (.ok (.boolean !b))
  | refused (e e' : EvalError) : Opposite (.error e) (.error e')

theorem opposite_compareOr (u v : Value) (o : Ordering) :
    Opposite (Operator.equal.compareOr o u v) (Operator.notEqual.compareOr o u v) := by
  cases o with
  | eq => exact .answers true
  | lt | gt => exact .answers false

theorem opposite_onEquality :
    Opposite (Operator.equal.onEquality s u v) (Operator.notEqual.onEquality s u v) :=
  .answers _

theorem opposite_refuse :
    Opposite (Operator.equal.refuse u v) (Operator.notEqual.refuse u v) := .refused _ _

theorem opposite_binary : Opposite (Operator.equal.binary s u v) (Operator.notEqual.binary s u v) := by
  cases u <;> cases v
  case integer.integer a b => exact opposite_compareOr (.integer a) (.integer b) _
  case text.text t t' => exact opposite_compareOr (.text t) (.text t') _
  case boolean.boolean => exact .answers _
  case float.float => exact .answers _
  case integer.float => exact .answers _
  case float.integer => exact .answers _
  all_goals first | exact opposite_onEquality | exact opposite_refuse

/-! ## Orders -/

/-- The word says yes. -/
def Holds (op : Operator) (s : Store) (u v : Value) : Prop :=
  op.binary s u v = .ok (.boolean true)

/-- On the values of `value` the six words have answers, and these describe one total order. -/
structure Orders {α : Type} (s : Store) (value : α → Value) : Prop where
  answers : ∀ op ∈ comparisons, ∀ a b,
    op.Holds s (value a) (value b) ∨ op.binary s (value a) (value b) = .ok (.boolean false)
  equal : ∀ a b, Operator.equal.Holds s (value a) (value b) ↔ a = b
  one_of_three : ∀ a b,
    let isLess := less.Holds s (value a) (value b)
    let isEqual := Operator.equal.Holds s (value a) (value b)
    let isGreater := greater.Holds s (value a) (value b)
    (isLess ∧ ¬ isEqual ∧ ¬ isGreater) ∨ (¬ isLess ∧ isEqual ∧ ¬ isGreater) ∨
      (¬ isLess ∧ ¬ isEqual ∧ isGreater)
  lessOrEqual : ∀ a b, Operator.lessOrEqual.Holds s (value a) (value b) ↔
    ¬ greater.Holds s (value a) (value b)
  greaterOrEqual : ∀ a b, Operator.greaterOrEqual.Holds s (value a) (value b) ↔
    ¬ less.Holds s (value a) (value b)
  less_trans : ∀ a b c, less.Holds s (value a) (value b) → less.Holds s (value b) (value c) →
    less.Holds s (value a) (value c)
  swapped : ∀ a b, less.Holds s (value a) (value b) ↔ greater.Holds s (value b) (value a)

section Orders

variable {α : Type} {cmp : α → α → Ordering} {value : α → Value}

/-- The words answer as `cmp` compares. -/
def Compares (s : Store) (value : α → Value) (cmp : α → α → Ordering) : Prop :=
  ∀ op ∈ comparisons, ∀ a b,
    op.binary s (value a) (value b) = op.compareOr (cmp a b) (value a) (value b)

theorem exists_holds? (h : op ∈ comparisons) (o : Ordering) : ∃ b, op.holds? o = some b := by
  cases op <;> simp [comparisons, holds?] at h ⊢

theorem Compares.holds_iff (h : Compares s value cmp) (hop : op ∈ comparisons) (a b : α) :
    op.Holds s (value a) (value b) ↔ op.holds? (cmp a b) = some true := by
  rw [Holds, h op hop, compareOr]
  cases op.holds? (cmp a b) <;> simp [refuse]

theorem Compares.orders [Std.TransCmp cmp] [Std.LawfulEqCmp cmp] (h : Compares s value cmp) :
    Orders s value := by
  have hless (a b : α) : less.Holds s (value a) (value b) ↔ cmp a b = .lt := by
    rw [h.holds_iff (by decide)]
    simp [holds?]
  have hequal (a b : α) : Operator.equal.Holds s (value a) (value b) ↔ cmp a b = .eq := by
    rw [h.holds_iff (by decide)]
    simp [holds?]
  have hgreater (a b : α) : greater.Holds s (value a) (value b) ↔ cmp a b = .gt := by
    rw [h.holds_iff (by decide)]
    simp [holds?]
  constructor
  case answers =>
    intro op hop a b
    obtain ⟨b', hb⟩ := exists_holds? hop (cmp a b)
    rw [Holds, h op hop, compareOr, hb]
    cases b' <;> simp
  case equal => exact fun a b => (hequal a b).trans Std.LawfulEqCmp.compare_eq_iff_eq
  case one_of_three =>
    intro a b
    rw [hless, hequal, hgreater]
    cases cmp a b <;> simp
  case lessOrEqual =>
    intro a b
    rw [h.holds_iff (by decide), hgreater]
    cases cmp a b <;> simp [holds?]
  case greaterOrEqual =>
    intro a b
    rw [h.holds_iff (by decide), hless]
    cases cmp a b <;> simp [holds?]
  case less_trans =>
    intro a b c hab hbc
    rw [hless] at hab hbc ⊢
    exact Std.TransCmp.lt_trans hab hbc
  case swapped =>
    intro a b
    have hswap : cmp a b = (cmp b a).swap := Std.OrientedCmp.eq_swap
    rw [hless, hgreater, hswap, Ordering.swap_eq_lt]

end Orders

/-- Integers are compared by their values. -/
def compareIntegers (a b : Int64) : Ordering := compareOn (fun n : Int64 => n.toInt) a b

instance : Std.TransCmp compareIntegers :=
  inferInstanceAs (Std.TransCmp (compareOn fun n : Int64 => n.toInt))

instance : Std.LawfulEqCmp compareIntegers where
  compare_self := Std.ReflCmp.compare_self
  eq_of_compare h := Int64.toInt_inj.1 (Std.LawfulEqCmp.eq_of_compare h)

theorem compares_integers (s : Store) : Compares s Value.integer compareIntegers := by
  intro op hop a b
  have hbinary : op.binary s (.integer a) (.integer b) = op.onIntegers a b := rfl
  rw [hbinary]
  cases op <;> first | rfl | simp [comparisons] at hop

theorem compares_texts (s : Store) : Compares s Value.text fun a b => compare a b := by
  intro op hop a b
  have hadd : op ≠ .add := by
    rintro rfl
    simp [comparisons] at hop
  exact if_neg hadd

theorem less_integers_iff {a b : Int64} :
    less.Holds s (.integer a) (.integer b) ↔ a.toInt < b.toInt := by
  have hlt : compareIntegers a b = .lt ↔ a.toInt < b.toInt := Int.compare_eq_lt
  rw [(compares_integers s).holds_iff (by decide), ← hlt]
  simp [holds?]

/-- Texts are compared character by character. -/
theorem less_texts_iff {t t' : String} :
    less.Holds s (.text t) (.text t') ↔ List.Lex charBelow t.toList t'.toList := by
  have hlt : compare t t' = .lt ↔ List.Lex charBelow t.toList t'.toList := by
    change compareOfLessAndEq t t' = .lt ↔ _
    rw [compareOfLessAndEq_eq_lt]
    exact Iff.rfl
  rw [(compares_texts s).holds_iff (by decide), ← hlt]
  simp [holds?]

theorem isEq_eq_beq {α : Type} [BEq α] [LawfulBEq α] {cmp : α → α → Ordering}
    [Std.LawfulEqCmp cmp] (a b : α) : (cmp a b).isEq = (a == b) := by
  rw [Bool.eq_iff_iff, Ordering.isEq_iff_eq_eq, Std.LawfulEqCmp.compare_eq_iff_eq, beq_iff_eq]

/-- On values of one kind the word is equality, where it is defined. -/
theorem equal_of_kind (h : u.kind = v.kind) :
    Operator.equal.binary s u v = .ok (.boolean (s.equal u v)) ∨
      Refuses (Operator.equal.binary s u v) := by
  cases u <;> cases v <;> try cases h
  case integer.integer a b =>
    have hbeq : (compareIntegers a b).isEq = s.equal (.integer a) (.integer b) := isEq_eq_beq a b
    exact .inl (hbeq ▸ rfl)
  case text.text t t' =>
    have hbeq : (compare t t').isEq = s.equal (.text t) (.text t') := isEq_eq_beq t t'
    exact .inl (hbeq ▸ rfl)
  case action.action => exact .inr refuses_refuse
  case callback.callback => exact .inr refuses_refuse
  all_goals exact .inl rfl

/-! ## All of it -/

/-- For all operands `not-equal` is the opposite of `equal`. On values of one kind `equal` is
equality, which means the same contents, the same object or callback, and for lists the same list or
equal elements. On integers and on texts the six words describe one total order: that of the
numbers, and the lexicographic one by code points, which is the one by bytes. And whether an
operator is made for its operands depends on their kinds alone. -/
theorem comparisons_agree (s : Store) :
    (∀ u v, Opposite (Operator.equal.binary s u v) (Operator.notEqual.binary s u v)) ∧
    (∀ u v w, u.kind = v.kind → Operator.equal.binary s u v = .ok w →
      w = .boolean (s.equal u v)) ∧
    (∀ u v, s.equal u v = true ↔ EqualBy (fun a b => a = b ∨ s.SameElements a b) u v) ∧
    Orders s Value.integer ∧
    Orders s Value.text ∧
    (∀ a b : Int64, less.Holds s (.integer a) (.integer b) ↔ a.toInt < b.toInt) ∧
    (∀ t t' : String,
      (less.Holds s (.text t) (.text t') ↔ List.Lex charBelow t.toList t'.toList) ∧
      (less.Holds s (.text t) (.text t') ↔ List.Lex byteBelow (textBytes t) (textBytes t'))) ∧
    (∀ (op : Operator) (s' : Store) (u v u' v' : Value), u.kind = u'.kind → v.kind = v'.kind →
      (Refuses (op.binary s u v) ↔ Refuses (op.binary s' u' v'))) ∧
    ∀ (op : Operator) (v v' : Value), v.kind = v'.kind →
      (Refuses (op.unary v) ↔ Refuses (op.unary v')) := by
  refine ⟨fun u v => opposite_binary, fun u v w hkind hw => ?_, fun u v => Store.equal_iff_elements,
    (compares_integers s).orders, (compares_texts s).orders, fun a b => less_integers_iff,
    fun t t' => ⟨less_texts_iff, less_texts_iff.trans lex_chars_iff_bytes⟩,
    fun op s' u v u' v' hu hv => ?_, fun op v v' hv => ?_⟩
  · rcases equal_of_kind hkind with h | h
    · rw [h] at hw
      cases hw
      rfl
    · rw [hw] at h
      exact absurd h not_refuses_ok
  · rw [refuses_binary_iff, refuses_binary_iff, hu, hv]
  · rw [refuses_unary_iff, refuses_unary_iff, hv]

/-- The first difference decides, and the shorter of two texts is the smaller one. -/
example : less.Holds {} (.text "ab") (.text "b") ∧ less.Holds {} (.text "a") (.text "ab") ∧
    less.Holds {} (.text "Z") (.text "é") :=
  ⟨rfl, rfl, rfl⟩

end Operator

end WordStack
