import WordStack.Proofs.Scanning

/-!
# The grammar of literals

What a word is read as, by the form of the literals and not by how they are taken apart. An integer
is an optional sign and digits, of a value that fits 64 bits. A double is an optional sign and a
decimal or a name. A word that is no integer but has a digit is tried as a double, so the names of
the infinities stay symbols (`wordReads_readWord`).
-/

namespace WordStack

/-! ## The forms -/

/-- A text is a body behind an optional sign, which may say that the number is negative. -/
inductive SignedText : List Char → Bool → List Char → Prop
  | bare (body : List Char) : SignedText body false body
  | plus (body : List Char) : SignedText ('+' :: body) false body
  | minus (body : List Char) : SignedText ('-' :: body) true body

/-- The text is an integer of this value. -/
inductive IntegerLiteral (cs : List Char) : Int → Prop
  | digits {negative : Bool} {ds : List Char} (h : SignedText cs negative ds)
    (hds : isDigits ds = true) : IntegerLiteral cs (signed negative (digitsValue ds))

/-- Digits with at most one point, and at least one digit among them. -/
inductive Mantissa : List Char → Prop
  | whole {ds : List Char} (h : isDigits ds = true) : Mantissa ds
  | point {ds places : List Char} (hds : ds.all Char.isDigit = true)
    (hplaces : places.all Char.isDigit = true) (hany : ds ≠ [] ∨ places ≠ []) :
    Mantissa (ds ++ '.' :: places)

/-- Nothing, or the letter of an exponent with an optional sign and digits. -/
inductive ExponentPart : List Char → Prop
  | absent : ExponentPart []
  | present {e : Char} {cs ds : List Char} {negative : Bool} (he : e = 'e' ∨ e = 'E')
    (h : SignedText cs negative ds) (hds : isDigits ds = true) : ExponentPart (e :: cs)

/-- The text is a double. -/
inductive FloatLiteral (cs : List Char) : Prop
  | decimal {negative : Bool} {mantissa exponent : List Char}
    (h : SignedText cs negative (mantissa ++ exponent)) (hm : Mantissa mantissa)
    (he : ExponentPart exponent) : FloatLiteral cs
  | named {negative : Bool} {name : List Char} (h : SignedText cs negative name)
    (hname : String.ofList (name.map Char.toLower) ∈ ["inf", "infinity", "nan"]) :
    FloatLiteral cs

/-- What a word is read as. -/
inductive WordReads (cs : List Char) : Value → Prop
  | integer {n : Int64} (h : IntegerLiteral cs n.toInt) : WordReads cs (.integer n)
  | float {x : Float} (hint : ∀ n : Int64, ¬ IntegerLiteral cs n.toInt)
    (hdigit : ∃ c ∈ cs, c.isDigit = true) (h : FloatLiteral cs) (hx : readFloat? cs = some x) :
    WordReads cs (.float x)
  | symbol (hint : ∀ n : Int64, ¬ IntegerLiteral cs n.toInt)
    (hfloat : ¬ ((∃ c ∈ cs, c.isDigit = true) ∧ FloatLiteral cs)) :
    WordReads cs (.symbol (String.ofList cs))

/-! ## Signs -/

/-- A body that begins with no sign is what is left when the sign is taken off. -/
theorem SignedText.splitSign_eq {cs body : List Char} {negative : Bool}
    (h : SignedText cs negative body) (hbody : ∀ c ∈ body.head?, c ≠ '+' ∧ c ≠ '-') :
    splitSign cs = (negative, body) := by
  cases h with
  | plus => rfl
  | minus => rfl
  | bare =>
    unfold splitSign
    split
    · simp at hbody
    · simp at hbody
    · rfl

theorem signedText_splitSign (cs : List Char) :
    SignedText cs (splitSign cs).1 (splitSign cs).2 := by
  unfold splitSign
  split
  · exact .minus _
  · exact .plus _
  · exact .bare _

theorem head_of_isDigits {ds : List Char} (h : isDigits ds = true) :
    ∃ c rest, ds = c :: rest ∧ c.isDigit = true := by
  cases ds with
  | nil => cases h
  | cons c rest => exact ⟨c, rest, rfl, by simp_all [isDigits]⟩

theorem not_sign_of_isDigit {c : Char} (h : c.isDigit = true) : c ≠ '+' ∧ c ≠ '-' := by
  constructor <;> rintro rfl <;> cases h

theorem SignedText.splitSign_of_isDigits {cs ds : List Char} {negative : Bool}
    (h : SignedText cs negative ds) (hds : isDigits ds = true) :
    splitSign cs = (negative, ds) := by
  obtain ⟨c, rest, rfl, hc⟩ := head_of_isDigits hds
  exact h.splitSign_eq (by simpa using not_sign_of_isDigit hc)

/-! ## Integers -/

theorem readInteger?_eq_some_iff {cs : List Char} {n : Int} :
    readInteger? cs = some n ↔ IntegerLiteral cs n := by
  constructor
  · intro h
    simp only [readInteger?, Option.ite_none_right_eq_some, Option.some.injEq] at h
    obtain ⟨hds, rfl⟩ := h
    exact .digits (signedText_splitSign cs) hds
  · rintro ⟨h, hds⟩
    simp [readInteger?, h.splitSign_of_isDigits hds, hds]

/-- A text is a word of 64 bits exactly when it is an integer of that value. -/
theorem readInt64?_eq_some_iff {cs : List Char} {n : Int64} :
    readInt64? cs = some n ↔ IntegerLiteral cs n.toInt := by
  rw [readInt64?_eq, Option.bind_eq_some_iff]
  constructor
  · rintro ⟨i, hi, hn⟩
    obtain ⟨hfits, hn⟩ := Option.ite_none_right_eq_some.1 hn
    obtain rfl := Option.some.inj hn
    rw [toInt_ofInt hfits]
    exact readInteger?_eq_some_iff.1 hi
  · intro h
    exact ⟨n.toInt, readInteger?_eq_some_iff.2 h, by simp [fitsInt64_toInt]⟩

/-! ## Doubles -/

theorem readExponent?_isSome_iff {cs : List Char} :
    (readExponent? cs).isSome = true ↔ ExponentPart cs := by
  cases cs with
  | nil => simp [readExponent?, ExponentPart.absent]
  | cons e cs =>
    simp only [readExponent?, Option.isSome_ite]
    constructor
    · rintro ⟨he, hds⟩
      exact .present he (signedText_splitSign cs) hds
    · intro h
      obtain _ | ⟨he, h, hds⟩ := h
      rw [h.splitSign_of_isDigits hds]
      exact ⟨he, hds⟩

/-- An exponent begins with a letter. -/
theorem ExponentPart.head {cs : List Char} (h : ExponentPart cs) :
    ∀ c ∈ cs.head?, c.isDigit = false ∧ c ≠ '.' := by
  cases h with
  | absent => simp
  | present he => rcases he with rfl | rfl <;> simp

theorem isDigits_iff {ds : List Char} :
    isDigits ds = true ↔ ds ≠ [] ∧ ds.all Char.isDigit = true := by
  simp [isDigits]

section Decimal

variable {ds places rest : List Char}

/-- Without a point the exponent follows the digits. -/
theorem isSome_readDecimal?_whole (hds : ∀ c ∈ ds, c.isDigit = true)
    (hrest : ∀ c ∈ rest.head?, c.isDigit = false) (hpoint : ∀ c ∈ rest.head?, c ≠ '.') :
    (readDecimal? (ds ++ rest)).isSome = (!ds.isEmpty && (readExponent? rest).isSome) := by
  unfold readDecimal?
  rw [takeWhile_append_all hds hrest, dropWhile_append_all hds hrest]
  cases rest with
  | nil => cases ds <;> simp
  | cons c rest =>
    have hc : c ≠ '.' := hpoint c rfl
    cases ds <;> simp [hc]

theorem isSome_readDecimal?_point (hds : ∀ c ∈ ds, c.isDigit = true)
    (hplaces : ∀ c ∈ places, c.isDigit = true) (hrest : ∀ c ∈ rest.head?, c.isDigit = false) :
    (readDecimal? (ds ++ '.' :: (places ++ rest))).isSome =
      (!(ds.isEmpty && places.isEmpty) && (readExponent? rest).isSome) := by
  have hdot : ∀ c ∈ ('.' :: (places ++ rest)).head?, c.isDigit = false := by simp
  unfold readDecimal?
  rw [takeWhile_append_all hds hdot, dropWhile_append_all hds hdot]
  simp only [takeWhile_append_all hplaces hrest, dropWhile_append_all hplaces hrest]
  cases ds <;> cases places <;> simp

/-- A text is its digits and what follows them. -/
theorem exists_digits (cs : List Char) : ∃ ds rest, cs = ds ++ rest ∧
    (∀ c ∈ ds, c.isDigit = true) ∧ ∀ c ∈ rest.head?, c.isDigit = false := by
  refine ⟨cs.takeWhile Char.isDigit, cs.dropWhile Char.isDigit,
    List.takeWhile_append_dropWhile.symm, fun c hc => List.mem_takeWhile_imp hc, fun c hc => ?_⟩
  have := List.head?_dropWhile_not Char.isDigit cs
  rw [Option.mem_def.1 hc] at this
  simpa using this

theorem isSome_readDecimal?_iff {cs : List Char} :
    (readDecimal? cs).isSome = true ↔
      ∃ mantissa exponent, cs = mantissa ++ exponent ∧ Mantissa mantissa ∧
        ExponentPart exponent := by
  constructor
  · intro h
    obtain ⟨ds, rest, rfl, hds, hrest⟩ := exists_digits cs
    by_cases hpoint : ∀ c ∈ rest.head?, c ≠ '.'
    · rw [isSome_readDecimal?_whole hds hrest hpoint, Bool.and_eq_true] at h
      have hne : ds ≠ [] := by simpa using h.1
      exact ⟨ds, rest, rfl, .whole (isDigits_iff.2 ⟨hne, List.all_eq_true.2 hds⟩),
        readExponent?_isSome_iff.1 h.2⟩
    · obtain ⟨rest, rfl⟩ : ∃ cs, rest = '.' :: cs := by
        cases rest with
        | nil => simp at hpoint
        | cons c cs => exact ⟨cs, by simpa using hpoint⟩
      obtain ⟨places, rest, rfl, hplaces, hrest⟩ := exists_digits rest
      rw [isSome_readDecimal?_point hds hplaces hrest, Bool.and_eq_true] at h
      have hany : ds ≠ [] ∨ places ≠ [] := by
        simpa [-not_and, not_and_or] using h.1
      exact ⟨ds ++ '.' :: places, rest, by simp,
        .point (List.all_eq_true.2 hds) (List.all_eq_true.2 hplaces) hany,
        readExponent?_isSome_iff.1 h.2⟩
  · rintro ⟨mantissa, exponent, rfl, hm, he⟩
    have hread := readExponent?_isSome_iff.2 he
    have hrest := fun c hc => (he.head c hc).1
    cases hm with
    | whole h =>
      obtain ⟨hne, hds⟩ := isDigits_iff.1 h
      rw [isSome_readDecimal?_whole (List.all_eq_true.1 hds) hrest fun c hc => (he.head c hc).2,
        hread]
      simpa using hne
    | point hds hplaces hany =>
      rw [List.append_assoc, List.cons_append, isSome_readDecimal?_point (List.all_eq_true.1 hds)
        (List.all_eq_true.1 hplaces) hrest, hread]
      simpa [-not_and, not_and_or] using hany

/-- A decimal does not begin with a sign. -/
theorem Mantissa.head {mantissa : List Char} (h : Mantissa mantissa) (more : List Char) :
    ∀ c ∈ (mantissa ++ more).head?, c ≠ '+' ∧ c ≠ '-' := by
  cases h with
  | whole h =>
    obtain ⟨c, rest, rfl, hc⟩ := head_of_isDigits h
    simpa using not_sign_of_isDigit hc
  | @point ds places hds hplaces hany =>
    cases ds with
    | nil => simp
    | cons c ds =>
      have hc : c.isDigit = true := List.all_eq_true.1 hds c (by simp)
      simpa using not_sign_of_isDigit hc

end Decimal

theorem isSome_readNamedFloat?_iff {negative : Bool} {name : List Char} :
    (readNamedFloat? negative name).isSome = true ↔
      String.ofList (name.map Char.toLower) ∈ ["inf", "infinity", "nan"] := by
  unfold readNamedFloat?
  split <;> simp_all

/-- A name does not begin with a sign. -/
theorem head_of_named {name : List Char}
    (h : String.ofList (name.map Char.toLower) ∈ ["inf", "infinity", "nan"]) :
    ∀ c ∈ name.head?, c ≠ '+' ∧ c ≠ '-' := by
  rintro c hc
  obtain ⟨rest, rfl⟩ : ∃ rest, name = c :: rest := by
    cases name with
    | nil => simp at hc
    | cons x rest => exact ⟨rest, by simpa using hc⟩
  constructor <;> rintro rfl <;> simp [← String.toList_inj] at h

theorem isSome_readFloat?_iff {cs : List Char} :
    (readFloat? cs).isSome = true ↔ FloatLiteral cs := by
  have hread : (readFloat? cs).isSome = true ↔ (readDecimal? (splitSign cs).2).isSome = true ∨
      (readNamedFloat? (splitSign cs).1 (splitSign cs).2).isSome = true := by
    unfold readFloat?
    cases h : readDecimal? (splitSign cs).2 <;> simp [h]
  rw [hread, isSome_readDecimal?_iff, isSome_readNamedFloat?_iff]
  have hsign := signedText_splitSign cs
  constructor
  · rintro (⟨mantissa, exponent, hcs, hm, he⟩ | hname)
    · rw [hcs] at hsign
      exact .decimal hsign hm he
    · exact .named hsign hname
  · rintro (⟨h, hm, he⟩ | ⟨h, hname⟩)
    · rw [h.splitSign_eq (hm.head _)]
      exact .inl ⟨_, _, rfl, hm, he⟩
    · rw [h.splitSign_eq (head_of_named hname)]
      exact .inr hname

/-! ## Words -/

/-- A word is an integer if it can be, else a double if it has a digit and can be, else a symbol. -/
theorem wordReads_readWord (cs : List Char) : WordReads cs (readWord cs) := by
  unfold readWord
  cases hint : readInt64? cs with
  | some n => exact .integer (readInt64?_eq_some_iff.1 hint)
  | none =>
    have hint (n : Int64) : ¬ IntegerLiteral cs n.toInt := fun h => by
      rw [readInt64?_eq_some_iff.2 h] at hint
      cases hint
    by_cases hdigit : cs.any Char.isDigit = true
    · have hany : ∃ c ∈ cs, c.isDigit = true := List.any_eq_true.1 hdigit
      rw [if_pos hdigit]
      cases hx : readFloat? cs with
      | some x => exact .float hint hany (isSome_readFloat?_iff.1 (by simp [hx])) hx
      | none => exact .symbol hint fun h => by simpa [hx] using isSome_readFloat?_iff.2 h.2
    · rw [if_neg hdigit]
      exact .symbol hint fun h => hdigit (List.any_eq_true.2 h.1)

/-- No text is read in two ways. -/
theorem WordReads.unique {cs : List Char} {u v : Value} (hu : WordReads cs u)
    (hv : WordReads cs v) : u = v := by
  cases hu with
  | integer h =>
    cases hv with
    | integer h' =>
      have := (readInt64?_eq_some_iff.2 h).symm.trans (readInt64?_eq_some_iff.2 h')
      rw [Option.some.inj this]
    | float hint => exact absurd h (hint _)
    | symbol hint => exact absurd h (hint _)
  | float hint hdigit h hx =>
    cases hv with
    | integer h' => exact absurd h' (hint _)
    | float _ _ _ hx' => rw [Option.some.inj (hx.symm.trans hx')]
    | symbol _ hfloat => exact absurd ⟨hdigit, h⟩ hfloat
  | symbol hint hfloat =>
    cases hv with
    | integer h' => exact absurd h' (hint _)
    | float _ hdigit h => exact absurd ⟨hdigit, h⟩ hfloat
    | symbol => rfl

end WordStack
