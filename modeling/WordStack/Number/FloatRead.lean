import WordStack.Number.Integer
import WordStack.Number.Binary64

/-!
# Reading doubles

A double is read from an optional sign and either a name (`inf`, `infinity`, `nan`, in letters of
any case) or decimal digits with at most one point and an optional exponent. The result is the
double nearest to the number that is written, however many digits there are, but an exponent of
65536 or more ends with the digit that makes it so large.
-/

namespace WordStack

/-- A decimal as it is read: its digits without the point, and the power of ten that scales them. -/
structure DecimalLiteral where
  digits : Nat
  exponent : Int
  deriving Repr, DecidableEq

/-- From here on the digits that follow in an exponent are passed over. -/
def exponentCap : Nat := 65536

/-- The value of an exponent's digits up to the one that reaches the cap. -/
def cappedValue (ds : List Char) : Nat :=
  ds.foldl (fun n c => if n < exponentCap then 10 * n + digitsValue [c] else n) 0

/-- The exponent after the digits: nothing, or `e` with an optional sign and digits. -/
def readExponent? : List Char → Option Int
  | [] => some 0
  | c :: cs =>
    let (negative, ds) := splitSign cs
    if (c = 'e' ∨ c = 'E') ∧ isDigits ds then some (signed negative (cappedValue ds)) else none

/-- How many digits of a decimal count. Neither a double nor a number halfway between two has as
many. -/
def digitLimit : Nat := 800

/-- The decimal with the given digits, the first of which is not zero. Of more digits than count,
one more is kept, which tells whether the others are all zero: the nearest double is the same. -/
def DecimalLiteral.ofDigits (ds : List Char) (exponent : Int) : DecimalLiteral :=
  let rest := ds.drop digitLimit
  if rest.isEmpty then ⟨digitsValue ds, exponent⟩
  else
    let last := if rest.all (· == '0') then '0' else '1'
    ⟨digitsValue (ds.take digitLimit ++ [last]), exponent + rest.length - 1⟩

/-- Digits with at most one point, at least one digit among them, and an exponent. -/
def readDecimal? (cs : List Char) : Option DecimalLiteral :=
  let whole := cs.takeWhile Char.isDigit
  let rest := cs.dropWhile Char.isDigit
  let (places, rest) := match rest with
    | '.' :: cs => (cs.takeWhile Char.isDigit, cs.dropWhile Char.isDigit)
    | cs => ([], cs)
  if whole.isEmpty && places.isEmpty then none
  else (readExponent? rest).map fun e =>
    .ofDigits (dropZeros (whole ++ places)) (e - places.length)

/-- The double nearest to a decimal. Beyond the powers of ten that doubles reach, the exponent
does not matter: the number is infinite or zero. -/
def DecimalLiteral.toFloat (negative : Bool) (d : DecimalLiteral) : Float :=
  if d.digits = 0 ∨ d.exponent + d.digits.log2 < -400 then Binary64.ofMagnitude negative 0
  else if d.exponent > 400 then Binary64.ofMagnitude negative Binary64.infiniteMagnitude
  else Binary64.nearest negative (d.digits * Nat.pow 10 d.exponent.toNat)
    (Nat.pow 10 (-d.exponent).toNat)

/-- The named doubles, in lower case. -/
def readNamedFloat? (negative : Bool) (cs : List Char) : Option Float :=
  match String.ofList (cs.map Char.toLower) with
  | "inf" | "infinity" => some (Binary64.ofMagnitude negative Binary64.infiniteMagnitude)
  | "nan" => some (0.0 / 0.0)
  | _ => none

/-- The double that a text stands for. -/
def readFloat? (cs : List Char) : Option Float :=
  let (negative, rest) := splitSign cs
  match readDecimal? rest with
  | some d => some (d.toFloat negative)
  | none => readNamedFloat? negative rest

end WordStack
