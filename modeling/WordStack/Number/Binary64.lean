/-!
# Double precision numbers as exact fractions

A finite double is a sign, a mantissa `m` below `2 ^ 53` and a scale `q` with the value
`m * 2 ^ q`. `Binary64.ofFloat?` takes a double apart and `Binary64.nearest` finds the double
nearest to a fraction, ties going to the even mantissa. Both work on the bits alone.
-/

namespace WordStack

/-- A finite double: `mantissa * 2 ^ scale` with a sign. -/
structure Binary64 where
  negative : Bool
  mantissa : Nat
  scale : Int
  deriving Repr, DecidableEq

namespace Binary64

/-- The bit in front of the 52 that are kept of a normal mantissa. -/
def leadingBit : Nat := 0x10000000000000

/-- The bits of infinity without the sign. -/
def infiniteMagnitude : Nat := 0x7ff0000000000000

/-- The parts of a finite double, or `none` for an infinity or a NaN. -/
def ofFloat? (x : Float) : Option Binary64 :=
  let bits := x.toBits.toNat
  let exponent : Nat := bits / leadingBit % 2048
  let fraction : Nat := bits % leadingBit
  let negative := decide (bits >>> 63 = 1)
  if exponent = 2047 then none
  else if exponent = 0 then some ⟨negative, fraction, -1074⟩
  else some ⟨negative, fraction + leadingBit, (exponent : Int) - 1075⟩

/-- The double with the given sign whose other bits are `magnitude`. -/
def ofMagnitude (negative : Bool) (magnitude : Nat) : Float :=
  Float.ofBits (UInt64.ofNat (magnitude + if negative then 1 <<< 63 else 0))

/-- `num / den` to the nearest number, a half to the even neighbour. -/
def roundHalfEven (num den : Nat) : Nat :=
  let q := num / den
  let r := num % den
  if 2 * r < den ∨ (2 * r = den ∧ q % 2 = 0) then q else q + 1

/-- The greatest `k` with `2 ^ k ≤ num / den`, for positive numbers. -/
def floorLog2 (num den : Nat) : Int :=
  let k : Int := num.log2 - den.log2
  if den <<< k.toNat ≤ num <<< (-k).toNat then k else k - 1

/-- The bits, without the sign, of the double nearest to `num / den`: a mantissa of 53 bits, of
fewer at the least scale, and infinity where the number is too large. -/
def nearestMagnitude (num den : Nat) : Nat :=
  if num = 0 then 0
  else
    let q : Int := max (floorLog2 num den - 52) (-1074)
    let m := roundHalfEven (num <<< (-q).toNat) (den <<< q.toNat)
    min ((q + 1074).toNat * leadingBit + m) infiniteMagnitude

/-- The double nearest to the fraction `num / den`. -/
def nearest (negative : Bool) (num den : Nat) : Float :=
  ofMagnitude negative (nearestMagnitude num den)

/-- The remainder of a division toward zero: exact, with the sign of the dividend. -/
def remainder (x y : Float) : Float :=
  match ofFloat? x, ofFloat? y with
  | some a, some b =>
    if b.mantissa = 0 then 0.0 / 0.0
    else
      let q := min a.scale b.scale
      let r := (a.mantissa <<< (a.scale - q).toNat) % (b.mantissa <<< (b.scale - q).toNat)
      nearest a.negative (r <<< q.toNat) (1 <<< (-q).toNat)
  | some _, none => if y.isNaN then y else x
  | none, _ => 0.0 / 0.0

end Binary64

end WordStack
