import Mathlib.Data.Int.Bitwise
import WordStack.Arithmetic

/-!
# Integers that are exact

What the operators make of integers, told by the integers without bounds. A sum, a difference and a
product are the mathematical ones, or they do not fit (`IsExact`); a quotient and a remainder make
up the dividend (`Divides`); the places of a shift are counted modulo 64, and what is shifted out is
lost; the operators on bits are those of the two's complement. All of it is together in
`integers_exact_or_refused`.
-/

namespace WordStack

variable {a b : Int64} {i : Nat}

/-! ## Words and integers -/

theorem toInt_bounds (a : Int64) : -(2 ^ 63) ≤ a.toInt ∧ a.toInt ≤ 2 ^ 63 - 1 := by
  simpa only [FitsInt64, Int64.toInt_minValue, Int64.toInt_maxValue] using fitsInt64_toInt a

/-- The bits of a word are those of its two's complement. -/
theorem testBit_toInt (a : Int64) (h : i < 64) : a.toInt.testBit i = a.toBitVec.getLsbD i := by
  have hlt : a.toBitVec.toNat < 2 ^ 64 := a.toBitVec.isLt
  rw [← Int64.toInt_toBitVec, BitVec.toInt_eq_toNat_cond]
  split
  · rfl
  · have hneg : (a.toBitVec.toNat : Int) - (2 ^ 64 : Nat) =
        Int.negSucc (2 ^ 64 - (a.toBitVec.toNat + 1)) := by omega
    rw [hneg, Int.testBit, Nat.testBit_two_pow_sub_succ hlt]
    simp [h, BitVec.getLsbD]

/-! ## Quotients -/

/-- A quotient does not fit only where the least word is divided by minus one. -/
theorem not_fitsInt64_tdiv_iff :
    ¬ FitsInt64 (a.toInt.tdiv b.toInt) ↔ a = Int64.minValue ∧ b = -1 := by
  constructor
  · intro h
    obtain ⟨hleast, hgreatest⟩ := toInt_bounds a
    have hq : (a.toInt.tdiv b.toInt).natAbs = a.toInt.natAbs / b.toInt.natAbs := Int.natAbs_tdiv ..
    have hle : a.toInt.natAbs / b.toInt.natAbs ≤ a.toInt.natAbs := Nat.div_le_self _ _
    simp only [FitsInt64, Int64.toInt_minValue, Int64.toInt_maxValue] at h
    -- any other divisor at least halves the dividend
    have hb : b.toInt.natAbs = 1 := by
      by_contra hne
      have hhalf : a.toInt.natAbs / b.toInt.natAbs ≤ a.toInt.natAbs / 2 := by
        rcases Nat.eq_zero_or_pos b.toInt.natAbs with hzero | hpos
        · rw [hzero, Nat.div_zero]
          exact Nat.zero_le _
        · exact Nat.div_le_div_left (by omega) (by decide)
      omega
    rcases Int.natAbs_eq b.toInt with hone | hone <;> rw [hb] at hone <;> rw [hone] at h
    · rw [Nat.cast_one, Int.tdiv_one] at h
      omega
    · rw [Int.tdiv_neg, Nat.cast_one, Int.tdiv_one] at h
      refine ⟨Int64.toInt_inj.1 ?_, Int64.toInt_inj.1 hone⟩
      rw [Int64.toInt_minValue]
      omega
  · rintro ⟨rfl, rfl⟩
    decide

theorem natAbs_tmod_lt {m n : Int} (h : n ≠ 0) : (m.tmod n).natAbs < n.natAbs := by
  rw [Int.natAbs_tmod]
  exact Nat.mod_lt _ (Int.natAbs_pos.2 h)

theorem fitsInt64_tmod {m : Int} (h : b.toInt ≠ 0) : FitsInt64 (m.tmod b.toInt) := by
  have hlt := natAbs_tmod_lt (m := m) h
  have hb := toInt_bounds b
  simp only [FitsInt64, Int64.toInt_minValue, Int64.toInt_maxValue]
  omega

/-! ## Shifts -/

/-- The places of a shift, of a negative count too. -/
def shiftPlaces (b : Int64) : Nat := (b.toInt % 64).toNat

theorem shiftPlaces_lt (b : Int64) : shiftPlaces b < 64 := by
  unfold shiftPlaces
  omega

theorem toNat_smod_of_lt {x : BitVec 64} (h : x.toNat < 64) : (x.smod 64).toNat = x.toNat := by
  have hx : x.msb = false := by
    rw [BitVec.msb_eq_decide, decide_eq_false_iff_not]
    omega
  have h64 : (64 : BitVec 64).msb = false := by decide
  rw [BitVec.smod_eq, hx, h64]
  simpa using Nat.mod_eq_of_lt h

theorem toNat_shiftCount (b : Int64) : ((b &&& 63).toBitVec.smod 64).toNat = shiftPlaces b := by
  have hmask : (b &&& 63).toBitVec.toNat = b.toBitVec.toNat % 64 := by
    simpa using Nat.and_two_pow_sub_one_eq_mod b.toBitVec.toNat 6
  rw [toNat_smod_of_lt (by omega), hmask, shiftPlaces, ← Int64.toInt_toBitVec,
    BitVec.toInt_eq_toNat_cond]
  split <;> omega

theorem toInt_shiftLeft (a b : Int64) :
    (a <<< (b &&& 63)).toInt = (a.toInt * 2 ^ shiftPlaces b).bmod (2 ^ 64) := by
  rw [← Int64.toInt_toBitVec, Int64.toBitVec_shiftLeft, BitVec.shiftLeft_eq', toNat_shiftCount,
    BitVec.toInt_shiftLeft, ← Int64.toInt_toBitVec, BitVec.toInt_eq_toNat_bmod, Int.bmod_mul_bmod,
    Nat.shiftLeft_eq]
  push_cast
  rfl

theorem toInt_shiftRight (a b : Int64) :
    (a >>> (b &&& 63)).toInt = a.toInt.fdiv (2 ^ shiftPlaces b) := by
  rw [← Int64.toInt_toBitVec, Int64.toBitVec_shiftRight, BitVec.sshiftRight_eq', toNat_shiftCount,
    BitVec.toInt_sshiftRight, Int64.toInt_toBitVec, Int.shiftRight_eq_div_pow,
    Int.fdiv_eq_ediv_of_nonneg _ (Int.pow_nonneg (by decide))]
  push_cast
  rfl

/-! ## Results -/

namespace Operator

/-- The result is the number; or the number does not fit, and the result is an overflow. -/
def IsExact (op : Operator) (n : Int) (r : Except EvalError Value) : Prop :=
  (∃ m : Int64, r = .ok (.integer m) ∧ m.toInt = n) ∨
    (¬ FitsInt64 n ∧ r = .error (.overflow op))

/-- The results are a quotient toward zero and its remainder, which has the sign of the dividend.
There are none in two cases. -/
structure Divides (a b : Int64) (quotient remainder : Except EvalError Value) : Prop where
  quotient_zero : quotient = .error .divisionByZero ↔ b = 0
  remainder_zero : remainder = .error .divisionByZero ↔ b = 0
  quotient_overflow : quotient = .error (.overflow .divide) ↔ a = Int64.minValue ∧ b = -1
  remainder_overflow : remainder = .error (.overflow .modulo) ↔ a = Int64.minValue ∧ b = -1
  results : b = 0 ∨ (a = Int64.minValue ∧ b = -1) ∨ ∃ q r : Int64,
    quotient = .ok (.integer q) ∧ remainder = .ok (.integer r) ∧
      a.toInt = b.toInt * q.toInt + r.toInt ∧ r.toInt.natAbs < b.toInt.natAbs ∧
      (r.toInt = 0 ∨ r.toInt.sign = a.toInt.sign)

/-- The result is the word whose bits `f` tells. -/
def IsBitwise (f : Nat → Bool) (r : Except EvalError Value) : Prop :=
  ∃ m : Int64, r = .ok (.integer m) ∧ ∀ i < 64, m.toInt.testBit i = f i

theorem exact_isExact (op : Operator) (n : Int) : op.IsExact n (op.exact n) := by
  unfold exact
  split
  · next h => exact .inl ⟨Int64.ofInt n, rfl, toInt_ofInt h⟩
  · next h => exact .inr ⟨h, rfl⟩

theorem isBitwise_of_bits {f : Nat → Bool} {m : Int64}
    (h : ∀ i < 64, m.toBitVec.getLsbD i = f i) : IsBitwise f (.ok (.integer m)) :=
  ⟨m, rfl, fun i hi => (testBit_toInt m hi).trans (h i hi)⟩

/-! ## Operators -/

theorem divides_of_zero (a : Int64) :
    Divides a 0 (divide.onIntegers a 0) (modulo.onIntegers a 0) where
  quotient_zero := by simp [onIntegers]
  remainder_zero := by simp [onIntegers]
  quotient_overflow := by simp [onIntegers]
  remainder_overflow := by simp [onIntegers]
  results := .inl rfl

theorem divides_of_least : Divides Int64.minValue (-1) (divide.onIntegers Int64.minValue (-1))
    (modulo.onIntegers Int64.minValue (-1)) := by
  have hquotient : divide.onIntegers Int64.minValue (-1) = .error (.overflow .divide) := rfl
  have hremainder : modulo.onIntegers Int64.minValue (-1) = .error (.overflow .modulo) := rfl
  rw [hquotient, hremainder]
  exact ⟨by simp, by simp, by simp, by simp, .inr (.inl ⟨rfl, rfl⟩)⟩

theorem divides_of_fits (hb : b ≠ 0) (hfit : FitsInt64 (a.toInt.tdiv b.toInt)) :
    Divides a b (divide.onIntegers a b) (modulo.onIntegers a b) := by
  have hb' : b.toInt ≠ 0 := fun h => hb (Int64.toInt_inj.1 h)
  have hne : ¬ (a = Int64.minValue ∧ b = -1) := fun h => not_fitsInt64_tdiv_iff.2 h hfit
  have hquotient : divide.onIntegers a b =
      .ok (.integer (Int64.ofInt (a.toInt.tdiv b.toInt))) := by
    simp [onIntegers, hb, exact, hfit]
  have hremainder : modulo.onIntegers a b =
      .ok (.integer (Int64.ofInt (a.toInt.tmod b.toInt))) := by
    simp [onIntegers, hb, exact, hfit, Except.map]
  have hfit' : FitsInt64 (a.toInt.tmod b.toInt) := fitsInt64_tmod hb'
  rw [hquotient, hremainder]
  refine ⟨by simp [hb], by simp [hb], by simp [hne], by simp [hne],
    .inr (.inr ⟨_, _, rfl, rfl, ?_, ?_, ?_⟩)⟩ <;> rw [toInt_ofInt hfit']
  · rw [toInt_ofInt hfit, Int.mul_tdiv_add_tmod]
  · exact natAbs_tmod_lt hb'
  · rw [Int.sign_tmod]
    by_cases hdvd : b.toInt ∣ a.toInt
    · exact .inl (Int.tmod_eq_zero_of_dvd hdvd)
    · exact .inr (if_neg hdvd)

theorem onIntegers_divides (a b : Int64) :
    Divides a b (divide.onIntegers a b) (modulo.onIntegers a b) := by
  by_cases hb : b = 0
  · subst hb
    exact divides_of_zero a
  by_cases hfit : FitsInt64 (a.toInt.tdiv b.toInt)
  · exact divides_of_fits hb hfit
  · obtain ⟨rfl, rfl⟩ := not_fitsInt64_tdiv_iff.1 hfit
    exact divides_of_least

theorem onIntegers_bitwise (a b : Int64) :
    IsBitwise (fun i => a.toInt.testBit i && b.toInt.testBit i) (Operator.and.onIntegers a b) ∧
    IsBitwise (fun i => a.toInt.testBit i || b.toInt.testBit i) (Operator.or.onIntegers a b) ∧
    IsBitwise (fun i => a.toInt.testBit i ^^ b.toInt.testBit i) (exclusiveOr.onIntegers a b) := by
  refine ⟨isBitwise_of_bits fun i hi => ?_, isBitwise_of_bits fun i hi => ?_,
    isBitwise_of_bits fun i hi => ?_⟩ <;> simp [testBit_toInt _ hi]

theorem unary_bitwise (a : Int64) :
    IsBitwise (fun i => !a.toInt.testBit i) (Operator.not.unary (.integer a)) ∧
    IsBitwise (fun i => !a.toInt.testBit i) (onesComplement.unary (.integer a)) := by
  have hbits : IsBitwise (fun i => !a.toInt.testBit i) (.ok (.integer (~~~a))) :=
    isBitwise_of_bits fun i hi => by simp [testBit_toInt _ hi, hi]
  exact ⟨hbits, hbits⟩

theorem negate_overflow_iff (a : Int64) :
    negate.unary (.integer a) = .error (.overflow .negate) ↔ a = Int64.minValue := by
  obtain ⟨hleast, hgreatest⟩ := toInt_bounds a
  have hfit : FitsInt64 (-a.toInt) ↔ a ≠ Int64.minValue := by
    rw [Ne, ← Int64.toInt_inj, FitsInt64, Int64.toInt_minValue, Int64.toInt_maxValue]
    omega
  simp [unary, exact, hfit]

/-- An operator of one operand refuses two integers, and one of two operands refuses one. -/
theorem refuses_operands (s : Store) (op : Operator) (a b : Int64) :
    if op.arity = 1 then op.binary s (.integer a) (.integer b) =
      .error (.operandTypes op "Int64 and Int64")
    else op.unary (.integer a) = .error (.operandTypes op "Int64") := by
  cases op <;> rfl

/-- Whatever two integers the operators are given, they are exact or fail. -/
theorem integers_exact_or_refused (s : Store) (a b : Int64) :
    let on (op : Operator) := op.binary s (.integer a) (.integer b)
    let of (op : Operator) := op.unary (.integer a)
    IsExact .add (a.toInt + b.toInt) (on .add) ∧
    IsExact .subtract (a.toInt - b.toInt) (on .subtract) ∧
    IsExact .multiply (a.toInt * b.toInt) (on .multiply) ∧
    Divides a b (on .divide) (on .modulo) ∧
    (shiftPlaces b < 64 ∧ (shiftPlaces b : Int) = b.toInt % 64) ∧
    (∃ m : Int64, on .leftShift = .ok (.integer m) ∧
      m.toInt = (a.toInt * 2 ^ shiftPlaces b).bmod (2 ^ 64)) ∧
    (∃ m : Int64, on .rightShift = .ok (.integer m) ∧
      m.toInt = a.toInt.fdiv (2 ^ shiftPlaces b)) ∧
    IsBitwise (fun i => a.toInt.testBit i && b.toInt.testBit i) (on .and) ∧
    IsBitwise (fun i => a.toInt.testBit i || b.toInt.testBit i) (on .or) ∧
    IsBitwise (fun i => a.toInt.testBit i ^^ b.toInt.testBit i) (on .exclusiveOr) ∧
    IsBitwise (fun i => !a.toInt.testBit i) (of .not) ∧
    IsBitwise (fun i => !a.toInt.testBit i) (of .onesComplement) ∧
    IsExact .negate (-a.toInt) (of .negate) ∧
    (of .negate = .error (.overflow .negate) ↔ a = Int64.minValue) ∧
    ∀ op : Operator, if op.arity = 1 then on op = .error (.operandTypes op "Int64 and Int64")
      else of op = .error (.operandTypes op "Int64") := by
  intro on of
  obtain ⟨hand, hor, hxor⟩ := onIntegers_bitwise a b
  obtain ⟨hnot, hcomplement⟩ := unary_bitwise a
  have hplaces : (shiftPlaces b : Int) = b.toInt % 64 := by
    unfold shiftPlaces
    omega
  exact ⟨exact_isExact .add _, exact_isExact .subtract _, exact_isExact .multiply _,
    onIntegers_divides a b, ⟨shiftPlaces_lt b, hplaces⟩, ⟨_, rfl, toInt_shiftLeft a b⟩,
    ⟨_, rfl, toInt_shiftRight a b⟩, hand, hor, hxor, hnot, hcomplement, exact_isExact .negate _,
    negate_overflow_iff a, fun op => refuses_operands s op a b⟩

/-- A count of minus 62 is one of two places. -/
example : rightShift.onIntegers (-9) (-62) = .ok (.integer (-3)) := rfl

end Operator

end WordStack
