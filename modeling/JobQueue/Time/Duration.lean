import JobQueue.Text.Digits

/-!
# JobQueue.Time.Duration

Lengths of time: whole nanoseconds, fewer than `2 ^ 64` seconds.

- `Duration.clamp` takes any count and stops at the longest length.
- `Duration.text` writes a length in its largest unit not above it, with the
  fraction that is needed: `0ns`, `1.5µs`, `20ms`, `300s`, `1.000000001s`.
-/

namespace JobQueue

/-- A length of time in nanoseconds. -/
structure Duration where
  /-- The length in nanoseconds. -/
  nanos : Nat
  /-- The whole seconds fit in 64 bits. -/
  nanos_lt : nanos < 2 ^ 64 * 10 ^ 9
  deriving DecidableEq

namespace Duration

/-! ## Making lengths -/

/-- The longest length not above a count of nanoseconds. -/
def clamp (n : Nat) : Duration :=
  ⟨min n (2 ^ 64 * 10 ^ 9 - 1), by omega⟩

theorem nanos_clamp_le (n : Nat) : (clamp n).nanos ≤ n := Nat.min_le_left _ _

theorem nanos_clamp_of_lt {n : Nat} (h : n < 2 ^ 64 * 10 ^ 9) : (clamp n).nanos = n := by
  simp only [clamp]; omega

/-- No time at all. -/
def zero : Duration := clamp 0

/-- The longest length. -/
def max : Duration := clamp (2 ^ 64 * 10 ^ 9)

/-- Whole seconds. -/
def ofSecs (n : UInt64) : Duration := ⟨n.toNat * 10 ^ 9, by have := n.toNat_lt; omega⟩

/-- Whole milliseconds. -/
def ofMillis (n : UInt64) : Duration := ⟨n.toNat * 10 ^ 6, by have := n.toNat_lt; omega⟩

/-- Seconds and the nanoseconds beyond them, if both are in range. -/
def ofParts? (secs nanos : Nat) : Option Duration :=
  if h : secs < 2 ^ 64 ∧ nanos < 10 ^ 9 then
    some ⟨secs * 10 ^ 9 + nanos, by omega⟩
  else
    none

/-! ## Parts and comparisons -/

/-- The whole seconds. -/
def secs (d : Duration) : Nat := d.nanos / 10 ^ 9

/-- The nanoseconds beyond the whole seconds. -/
def subsec (d : Duration) : Nat := d.nanos % 10 ^ 9

/-- The whole milliseconds. -/
def millis (d : Duration) : Nat := d.nanos / 10 ^ 6

instance : LE Duration := ⟨fun a b => a.nanos ≤ b.nanos⟩
instance : LT Duration := ⟨fun a b => a.nanos < b.nanos⟩
instance (a b : Duration) : Decidable (a ≤ b) := inferInstanceAs (Decidable (a.nanos ≤ b.nanos))
instance (a b : Duration) : Decidable (a < b) := inferInstanceAs (Decidable (a.nanos < b.nanos))

/-- Whether the length is zero. -/
def isZero (d : Duration) : Bool := d.nanos == 0

/-- Whether the length is beyond a clock that counts its seconds in 63 bits, whatever
the clock shows. -/
def isEndless (d : Duration) : Bool := 2 ^ 63 ≤ d.secs + 1

/-- The longer of two lengths. -/
def longer (a b : Duration) : Duration := if a ≤ b then b else a

theorem le_longer_right (a b : Duration) : b ≤ longer a b := by
  unfold longer; split
  · exact Nat.le_refl _
  · next h => exact Nat.le_of_lt (Nat.lt_of_not_le h)

/-- The sum, or the longest length where the sum is longer. -/
def add (a b : Duration) : Duration := clamp (a.nanos + b.nanos)

/-! ## Text -/

/-- A whole number and a fraction of `width` digits, without the zeros at its end. -/
def decimalText (whole fraction width : Nat) : List Char :=
  let digits := ((Text.padded width fraction).reverse.dropWhile (· == '0')).reverse
  Text.decimal whole ++ (if digits.isEmpty then [] else '.' :: digits)

/-- The length in its largest unit not above it. -/
def text (d : Duration) : String :=
  let n := d.nanos
  if n ≥ 10 ^ 9 then String.ofList (decimalText (n / 10 ^ 9) (n % 10 ^ 9) 9 ++ ['s'])
  else if n ≥ 10 ^ 6 then String.ofList (decimalText (n / 10 ^ 6) (n % 10 ^ 6) 6 ++ ['m', 's'])
  else if n ≥ 10 ^ 3 then String.ofList (decimalText (n / 10 ^ 3) (n % 10 ^ 3) 3 ++ ['µ', 's'])
  else String.ofList (Text.decimal n ++ ['n', 's'])

end Duration

end JobQueue
