import JobQueue.Power

/-!
# JobQueue.Decimal.Binary

Double-precision numbers as exact binary fractions: a sign, a mantissa `m` and an
exponent `q`, for the value `m * 2 ^ q`.

- `Binary.ofFloat?` takes a finite number apart by its bits.
- `Binary.scaled` is the value times a natural number, rounded to the nearest
  whole number; a tie goes to the even one.
-/

namespace JobQueue.Decimal

/-- A finite double-precision number. -/
structure Binary where
  /-- Whether the sign is minus, also of zero. -/
  negative : Bool
  /-- The mantissa. -/
  mantissa : Nat
  /-- The power of two that the mantissa counts. -/
  exponent : Int
  /-- Whether the next number down is only half as far as the next one up. -/
  narrowBelow : Bool
  deriving DecidableEq

namespace Binary

/-- The parts of the number with the given bits, unless it is infinite or no number. -/
def ofBits? (bits : Nat) : Option Binary :=
  let negative : Bool := bits / 2 ^ 63 % 2 == 1
  let field : Nat := bits / 2 ^ 52 % 2 ^ 11
  let fraction : Nat := bits % 2 ^ 52
  if field = 2047 then none
  else if field = 0 then some ⟨negative, fraction, -1074, false⟩
  else some ⟨negative, 2 ^ 52 + fraction, Int.ofNat field - 1075, fraction == 0 && 1 < field⟩

/-- The parts of a finite number. -/
def ofFloat? (x : Float) : Option Binary := ofBits? x.toBits.toNat

/-- The value of the mantissa and exponent as a numerator and a denominator. -/
def fraction (b : Binary) : Nat × Nat :=
  (b.mantissa * 2 ^ b.exponent.toNat, 2 ^ (-b.exponent).toNat)

/-- A quotient rounded to the nearest whole number, a tie to the even one. -/
def roundDiv (num den : Nat) : Nat :=
  let whole := num / den
  let rest := num % den
  if 2 * rest < den then whole
  else if den < 2 * rest then whole + 1
  else whole + whole % 2

/-- A rounded quotient is within half a unit of the exact one. -/
theorem roundDiv_bounds {num den : Nat} (h : 0 < den) :
    2 * num ≤ (2 * roundDiv num den + 1) * den ∧ 2 * roundDiv num den * den ≤ 2 * num + den := by
  have hm := Nat.div_add_mod num den
  have hlt := Nat.mod_lt num h
  rw [Nat.mul_comm] at hm
  unfold roundDiv
  dsimp only
  split
  · rw [Nat.add_mul, Nat.mul_assoc]; omega
  · split
    · rw [show 2 * (num / den + 1) + 1 = 2 * (num / den) + 3 by omega,
        show 2 * (num / den + 1) = 2 * (num / den) + 2 by omega,
        Nat.add_mul, Nat.add_mul, Nat.mul_assoc]
      omega
    · rcases Nat.mod_two_eq_zero_or_one (num / den) with h2 | h2 <;> rw [h2]
      · rw [Nat.add_mul, Nat.add_zero, Nat.mul_assoc]; omega
      · rw [show 2 * (num / den + 1) + 1 = 2 * (num / den) + 3 by omega,
          show 2 * (num / den + 1) = 2 * (num / den) + 2 by omega,
          Nat.add_mul, Nat.add_mul, Nat.mul_assoc]
        omega

/-- The absolute value times `unit`, rounded to the nearest whole number. -/
def scaled (b : Binary) (unit : Nat) : Nat :=
  roundDiv (b.fraction.1 * unit) b.fraction.2

end Binary

end JobQueue.Decimal
