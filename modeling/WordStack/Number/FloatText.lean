import WordStack.Number.Integer
import WordStack.Number.Binary64

/-!
# Doubles as text

A double is written with the fewest digits that read back as the same double. Of two such
decimals the nearer is taken, and the greater of two that are equally near. There is never an
exponent: zeros fill the places up to the point.
-/

namespace WordStack

/-- The whole number `digits` times `10 ^ exponent`. -/
structure Decimal where
  digits : Nat
  exponent : Int
  deriving Repr, DecidableEq

namespace Binary64

/-- A number on the grid of the multiples of `10 ^ k` that reads back as `b`, the nearest one.
The numbers that round to `b` reach half a step up and down, a quarter step down from a power of
two, and their ends belong to them where the mantissa is even. -/
def onGrid? (b : Binary64) (k : Int) : Option Decimal :=
  let m := b.mantissa
  let below := if m = leadingBit ∧ b.scale > -1074 then 4 * m - 1 else 4 * m - 2
  let above := 4 * m + 2
  let q := b.scale - 2
  let unit := Nat.pow 10 (-k).toNat <<< q.toNat
  let step := Nat.pow 10 k.toNat <<< (-q).toNat
  let value := 4 * m * unit
  let down := value / step
  let up := down + 1
  let closed := m % 2 = 0
  let downHits := if closed then below * unit ≤ down * step else below * unit < down * step
  let upHits := if closed then up * step ≤ above * unit else up * step < above * unit
  if downHits ∧ (¬ upHits ∨ value - down * step < up * step - value) then some ⟨down, k⟩
  else if upHits then some ⟨up, k⟩
  else none

/-- A power of ten above every number that rounds to `b`. -/
def topExponent (b : Binary64) : Int :=
  (b.scale + (b.mantissa.log2 : Int) + 2) * 30103 / 100000 + 1

/-- The shortest decimal that reads back as `b`: the first hit from the coarsest grid down. -/
def shortest (b : Binary64) : Decimal :=
  ((List.range 24).findSome? fun (i : Nat) => b.onGrid? (b.topExponent - i)).getD ⟨0, 0⟩

end Binary64

/-- A decimal with all its places written out. -/
def Decimal.chars (d : Decimal) : List Char :=
  let ds := decimalDigits d.digits
  if d.exponent ≥ 0 then ds ++ List.replicate d.exponent.toNat '0'
  else
    let places := (-d.exponent).toNat
    if places < ds.length then
      ds.take (ds.length - places) ++ '.' :: ds.drop (ds.length - places)
    else '0' :: '.' :: List.replicate (places - ds.length) '0' ++ ds

/-- The text of a double. -/
def floatText (x : Float) : String :=
  match Binary64.ofFloat? x with
  | some b =>
    let magnitude := if b.mantissa = 0 then ['0'] else b.shortest.chars
    String.ofList (if b.negative then '-' :: magnitude else magnitude)
  | none => if x.isNaN then "NaN" else if x < 0.0 then "-inf" else "inf"

end WordStack
