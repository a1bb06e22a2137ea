import JobQueue.Decimal.Binary
import JobQueue.Text.Digits

/-!
# JobQueue.Decimal.Shortest

The decimal with the fewest digits that reads back as a given double-precision
number, and the nearest such decimal where there are several.

A number stands for the interval of reals that are nearer to it than to its
neighbours; the ends belong to it when its mantissa is even. For one digit, two
digits and so on, the two decimals around the number are tested against the
interval, and the first hit is taken. Seventeen digits always hit.
-/

namespace JobQueue.Decimal

open Text

/-- The decimal `digits * 10 ^ scale`. -/
structure Scientific where
  /-- The digits as one number. -/
  digits : Nat
  /-- The power of ten that they count. -/
  scale : Int
  deriving DecidableEq

namespace Scientific

/-- The power of ten of the first digit. -/
def exponent (s : Scientific) : Int := s.scale + (decimal s.digits).length - 1

/-- Drop zeros at the end of the digits, at most `fuel` of them. -/
def strip : Nat → Scientific → Scientific
  | 0, s => s
  | fuel + 1, s =>
      if s.digits ≠ 0 ∧ s.digits % 10 = 0 then strip fuel ⟨s.digits / 10, s.scale + 1⟩ else s

end Scientific

/-- The power of ten of the first digit of a positive fraction. -/
def leadingExponent (num den : Nat) : Int :=
  let guess : Int := (decimal num).length - (decimal den).length
  if den * 10 ^ guess.toNat ≤ num * 10 ^ (-guess).toNat then guess else guess - 1

namespace Binary

/-- The interval of a number and the grid of the multiples of `10 ^ scale`, in a
common unit: a decimal `c * 10 ^ scale` is `c * step`. -/
structure Grid where
  /-- The lower end. -/
  low : Nat
  /-- The number. -/
  middle : Nat
  /-- The upper end. -/
  high : Nat
  /-- The width of the grid. -/
  step : Nat
  /-- Whether the ends belong to the interval. -/
  closed : Bool

/-- The interval of a number on the grid of a power of ten. -/
def grid (b : Binary) (scale : Int) : Grid :=
  let unit := 2 ^ (b.exponent - 2).toNat * 10 ^ (-scale).toNat
  { low := (4 * b.mantissa - if b.narrowBelow then 1 else 2) * unit
    middle := 4 * b.mantissa * unit
    high := (4 * b.mantissa + 2) * unit
    step := 2 ^ (2 - b.exponent).toNat * 10 ^ scale.toNat
    closed := b.mantissa % 2 == 0 }

/-- Whether a point of the grid lies in the interval. -/
def Grid.contains (g : Grid) (c : Nat) : Bool :=
  if g.closed then g.low ≤ c * g.step && c * g.step ≤ g.high
  else g.low < c * g.step && c * g.step < g.high

/-- The point of the grid in the interval that is nearest to the number; of two
that are equally near, the even one. -/
def Grid.nearest? (g : Grid) : Option Nat :=
  let below := g.middle / g.step
  let toBelow := g.middle - below * g.step
  let toAbove := (below + 1) * g.step - g.middle
  let first :=
    if toBelow < toAbove then below
    else if toAbove < toBelow then below + 1
    else below + below % 2
  let second := 2 * below + 1 - first
  if g.contains first then some first
  else if g.contains second then some second
  else none

/-- The shortest decimal of a number. -/
def shortest (b : Binary) : Scientific :=
  if b.mantissa = 0 then ⟨0, 0⟩
  else
    let exponent := leadingExponent b.fraction.1 b.fraction.2
    let hit := (List.range 17).findSome? fun (n : Nat) =>
      let scale := exponent - n
      ((b.grid scale).nearest?).map fun digits => (⟨digits, scale⟩ : Scientific)
    (hit.getD ⟨0, 0⟩).strip 17

end Binary

end JobQueue.Decimal
