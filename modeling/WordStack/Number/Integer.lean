import WordStack.Text.Blank

/-!
# Integers as text

Integers are signed words of 64 bits. They are written in decimal with a minus sign where they
are negative, and read from one optional sign and at least one digit, when the number fits.
-/

namespace WordStack

/-- The number fits a signed word of 64 bits. -/
def FitsInt64 (n : Int) : Prop := Int64.minValue.toInt ≤ n ∧ n ≤ Int64.maxValue.toInt

instance (n : Int) : Decidable (FitsInt64 n) := inferInstanceAs (Decidable (_ ∧ _))

/-- The decimal digits of a number, the leading one not zero unless it stands alone. -/
def decimalDigits (n : Nat) : List Char := Nat.toDigits 10 n

/-- The number that a row of decimal digits stands for. -/
def digitsValue (ds : List Char) : Nat := Nat.ofDigitChars 10 ds 0

theorem digitsValue_decimalDigits (n : Nat) : digitsValue (decimalDigits n) = n :=
  Nat.ofDigitChars_toDigits (by decide) (by decide)

/-- At least one character, and each a decimal digit. -/
def isDigits (cs : List Char) : Bool := !cs.isEmpty && cs.all Char.isDigit

/-- The sign in front of a number, if one is written, and what follows it. -/
def splitSign : List Char → Bool × List Char
  | '-' :: cs => (true, cs)
  | '+' :: cs => (false, cs)
  | cs => (false, cs)

/-- A number with its sign. -/
def signed (negative : Bool) (n : Nat) : Int := if negative then -n else n

/-- The mathematical value of an optional sign and at least one digit. -/
def readInteger? (cs : List Char) : Option Int :=
  let (negative, ds) := splitSign cs
  if isDigits ds then some (signed negative (digitsValue ds)) else none

/-- The digits from the first one on that is not zero. -/
def dropZeros (ds : List Char) : List Char := ds.dropWhile (· == '0')

/-- Like `readInteger?`, for numbers that fit 64 bits. Such a number has at most 19 digits, so no
others are worked out. -/
def readInt64? (cs : List Char) : Option Int64 :=
  let (negative, ds) := splitSign cs
  if isDigits ds && (dropZeros ds).length ≤ 19 then
    let n := signed negative (digitsValue (dropZeros ds))
    if FitsInt64 n then some (Int64.ofInt n) else none
  else none

/-- The decimal form of an integer. -/
def integerChars (n : Int) : List Char :=
  if n < 0 then '-' :: decimalDigits n.natAbs else decimalDigits n.natAbs

/-- The decimal form of an integer, as text. -/
def integerText (n : Int) : String := String.ofList (integerChars n)

/-- The decimal form of a count. -/
def countText (n : Nat) : String := String.ofList (decimalDigits n)

theorem fitsInt64_toInt (n : Int64) : FitsInt64 n.toInt :=
  ⟨Int64.minValue_le_toInt n, Int64.toInt_le n⟩

theorem toInt_ofInt {n : Int} (h : FitsInt64 n) : (Int64.ofInt n).toInt = n := by
  obtain ⟨h₁, h₂⟩ := h
  simp only [Int64.toInt_minValue, Int64.toInt_maxValue] at h₁ h₂
  exact Int64.toInt_ofInt_of_le h₁ (by omega)

/-! ## Which texts are words of 64 bits -/

theorem digitsValue_dropZeros (ds : List Char) : digitsValue (dropZeros ds) = digitsValue ds := by
  induction ds with
  | nil => rfl
  | cons c cs ih =>
    by_cases h : c = '0'
    · subst h
      simpa [dropZeros, digitsValue, Nat.ofDigitChars_cons] using ih
    · simp [dropZeros, h]

/-- A number whose first digit is not zero has as many places as digits. -/
theorem pow_le_digitsValue {c : Char} {cs : List Char} (h : c.isDigit = true) (h0 : c ≠ '0') :
    Nat.pow 10 cs.length ≤ digitsValue (c :: cs) := by
  have hc : 1 ≤ c.toNat - '0'.toNat := by
    have hd : '0' ≤ c := by simp [Char.isDigit] at h; exact h.1
    have hd : '0'.toNat ≤ c.toNat := hd
    have hn : c.toNat ≠ '0'.toNat := fun e => h0 (Char.toNat_inj.1 e)
    omega
  unfold digitsValue
  rw [Nat.ofDigitChars_cons, Nat.ofDigitChars_eq_ofDigitChars_zero, Nat.mul_zero, Nat.zero_add]
  exact Nat.le_trans (Nat.le_mul_of_pos_right _ hc) (Nat.le_add_right _ _)

/-- A number of more than 19 digits, leading zeros apart, does not fit. -/
theorem not_fitsInt64_of_length {negative : Bool} {ds : List Char} (h : isDigits ds = true)
    (hl : 19 < (dropZeros ds).length) : ¬ FitsInt64 (signed negative (digitsValue ds)) := by
  rw [← digitsValue_dropZeros]
  cases hz : dropZeros ds with
  | nil => simp [hz] at hl
  | cons c rest =>
    have hc : c ∈ ds := (List.dropWhile_suffix _).subset (by
      rw [show ds.dropWhile (· == '0') = c :: rest from hz]; exact List.mem_cons_self)
    have hdigit : c.isDigit = true := by
      simp only [isDigits, Bool.and_eq_true, List.all_eq_true] at h
      exact h.2 c hc
    have h0 : c ≠ '0' := by
      have := List.head?_dropWhile_not (· == '0') ds
      rw [show ds.dropWhile (· == '0') = c :: rest from hz] at this
      simpa using this
    have hp : Nat.pow 10 rest.length ≤ digitsValue (c :: rest) := pow_le_digitsValue hdigit h0
    have h19 : Nat.pow 10 19 ≤ Nat.pow 10 rest.length :=
      Nat.pow_le_pow_right (by decide) (by simp [hz] at hl; omega)
    have h19 : 10000000000000000000 ≤ digitsValue (c :: rest) := Nat.le_trans h19 hp
    simp only [FitsInt64, Int64.toInt_minValue, Int64.toInt_maxValue, signed]
    split <;> omega

/-- A text is read as a word of 64 bits exactly when its value fits. -/
theorem readInt64?_eq (cs : List Char) :
    readInt64? cs =
      (readInteger? cs).bind fun n => if FitsInt64 n then some (Int64.ofInt n) else none := by
  rcases hs : splitSign cs with ⟨negative, ds⟩
  by_cases hd : isDigits ds
  · by_cases hl : (dropZeros ds).length ≤ 19
    · simp [readInt64?, readInteger?, hs, hd, digitsValue_dropZeros, hl]
    · have hfit : ¬ FitsInt64 (signed negative (digitsValue ds)) :=
        not_fitsInt64_of_length hd (by omega)
      simp [readInt64?, readInteger?, hs, hd, hl, hfit]
  · simp [readInt64?, readInteger?, hs, hd]

/-! ## What is written is read -/

theorem isDigits_decimalDigits (n : Nat) : isDigits (decimalDigits n) = true := by
  have hne : decimalDigits n ≠ [] := Nat.toDigits_ne_nil
  have hall : ∀ c ∈ decimalDigits n, c.isDigit = true := fun c hc =>
    Nat.isDigit_of_mem_toDigits (by decide) (by decide) hc
  simpa [isDigits, hne] using hall

theorem splitSign_of_isDigits {ds : List Char} (h : isDigits ds = true) :
    splitSign ds = (false, ds) := by
  unfold splitSign
  split
  · simp [isDigits, show '-'.isDigit = false from rfl] at h
  · simp [isDigits, show '+'.isDigit = false from rfl] at h
  · rfl

theorem readInteger?_integerChars (n : Int) : readInteger? (integerChars n) = some n := by
  have hd := isDigits_decimalDigits n.natAbs
  by_cases hn : n < 0
  · have hsplit : splitSign (integerChars n) = (true, decimalDigits n.natAbs) := by
      rw [integerChars, if_pos hn, splitSign]
    have habs : signed true n.natAbs = n := by
      simp only [signed, if_true]
      omega
    simp [readInteger?, hsplit, hd, digitsValue_decimalDigits, habs]
  · have hsplit : splitSign (integerChars n) = (false, decimalDigits n.natAbs) := by
      rw [integerChars, if_neg hn, splitSign_of_isDigits hd]
    have habs : signed false n.natAbs = n := by
      simp only [signed, Bool.false_eq_true, if_false]
      omega
    simp [readInteger?, hsplit, hd, digitsValue_decimalDigits, habs]

/-- Each word of 64 bits is read from its decimal form, the least and the greatest too. -/
theorem readInt64?_integerChars (n : Int64) : readInt64? (integerChars n.toInt) = some n := by
  rw [readInt64?_eq, readInteger?_integerChars]
  simp [fitsInt64_toInt]

theorem integerChars_ne_nil (n : Int) : integerChars n ≠ [] := by
  unfold integerChars
  split
  · exact List.cons_ne_nil _ _
  · exact Nat.toDigits_ne_nil

theorem mem_integerChars {n : Int} {c : Char} (h : c ∈ integerChars n) :
    c = '-' ∨ c.isDigit = true := by
  have hdigit : c ∈ decimalDigits n.natAbs → c.isDigit = true := fun hc =>
    Nat.isDigit_of_mem_toDigits (by decide) (by decide) hc
  unfold integerChars at h
  split at h
  · exact (List.mem_cons.1 h).imp_right hdigit
  · exact .inr (hdigit h)

end WordStack
