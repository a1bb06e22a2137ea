import JobQueue.Decimal.Binary

/-!
# JobQueue.Decimal.Nearest

The double-precision number nearest to a decimal; a tie goes to the even one.

- `nearestBits` rounds a positive fraction to the grid of the numbers of its size.
- `nearest?` rounds the decimal `digits * 10 ^ scale`; a decimal too large for
  every finite number has none.
-/

namespace JobQueue.Decimal

/-- The power of two that the mantissa of the number nearest to a positive
fraction counts: the fraction has 53 bits before that power, unless it is as
small as the smallest numbers are. -/
def gridExponent (num den : Nat) : Int :=
  let guess : Int := (num.log2 : Int) - den.log2 - 53
  let wide : Bool := den * 2 ^ (guess + 53).toNat ≤ num * 2 ^ (-(guess + 53)).toNat
  max (-1074) (if wide then guess + 1 else guess)

/-- The bits of the number nearest to a positive fraction. Rounding up to the next
power of two carries into the exponent, and past the largest finite number it
gives the bits of infinity or more. -/
def nearestBits (num den : Nat) : Nat :=
  let q := gridExponent num den
  (q + 1074).toNat * 2 ^ 52 + Binary.roundDiv (num * 2 ^ (-q).toNat) (den * 2 ^ q.toNat)

/-- The bits of infinity. -/
def infiniteBits : Nat := 2047 * 2 ^ 52

/-- The number nearest to the decimal `digits * 10 ^ scale`, unless that is
infinite. A decimal of `n` digits is below `10 ^ (scale + n)`, so most that are far
too small or too large are not computed. -/
def nearest? (digits : Nat) (scale : Int) : Option Float :=
  let top : Int := scale + (Nat.toDigits 10 digits).length
  if digits = 0 ∨ top < -330 then some 0.0
  else if 310 < top then none
  else
    let bits := nearestBits (digits * 10 ^ scale.toNat) (10 ^ (-scale).toNat)
    if bits < infiniteBits then some (Float.ofBits (.ofNat bits)) else none

end JobQueue.Decimal
