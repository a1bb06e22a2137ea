import JobQueue.Decimal.Nearest
import JobQueue.Text.Digits

/-!
# JobQueue.Decimal.Whole

The whole number that a text stands for: a decimal of at most 64 bits, with blanks
around it.

- A run of digits is read exactly.
- A decimal with a point or a power of ten is read as the double-precision number
  nearest to it, which may not be a whole one.
-/

namespace JobQueue.Decimal

open Text

/-! ## Parts of a decimal -/

/-- A decimal as it is written. -/
structure Written where
  negative : Bool
  /-- The digits before the point. -/
  whole : List Char
  /-- The digits after the point, if there is one. -/
  fraction : Option (List Char)
  /-- The power of ten, if there is one. -/
  power : Option Int
  deriving DecidableEq

namespace Written

/-- All digits. -/
def digits (w : Written) : List Char := w.whole ++ w.fraction.getD []

/-- Whether there are digits only. -/
def isPlain (w : Written) : Bool := w.fraction.isNone && w.power.isNone

/-- The number that is written, by absolute value: `value digits * 10 ^ scale`. -/
def scale (w : Written) : Int := w.power.getD 0 - (w.fraction.getD []).length

end Written

/-- Whether a character may stand around a decimal. -/
def isSpace (c : Char) : Bool := c == ' ' || ('\t' ≤ c && c ≤ '\r')

/-- A sign, whether it is minus, and the rest. -/
def takeSign : List Char → Bool × List Char
  | '-' :: cs => (true, cs)
  | '+' :: cs => (false, cs)
  | cs => (false, cs)

/-- A point and the digits after it, and the rest. -/
def takeFraction : List Char → Option (List Char) × List Char
  | '.' :: cs => (some (cs.takeWhile isDigit), cs.dropWhile isDigit)
  | cs => (none, cs)

/-- A power of ten, and the rest; none if its digits are missing. -/
def takePower? : List Char → Option (Option Int × List Char)
  | c :: cs =>
      if c == 'e' || c == 'E' then
        let (negative, cs) := takeSign cs
        let n : Int := value (cs.takeWhile isDigit)
        if (cs.takeWhile isDigit).isEmpty then none
        else some (some (if negative then -n else n), cs.dropWhile isDigit)
      else some (none, c :: cs)
  | [] => some (none, [])

/-- The parts of a text that is a decimal. -/
def written? (text : String) : Option Written := do
  let (negative, cs) := takeSign (text.toList.dropWhile isSpace)
  let (fraction, rest) := takeFraction (cs.dropWhile isDigit)
  let (power, rest) ← takePower? rest
  let w : Written := ⟨negative, cs.takeWhile isDigit, fraction, power⟩
  if rest.all isSpace && !w.digits.isEmpty then return w else none

/-! ## Whole numbers -/

/-- The absolute value of a number that is whole. -/
def Binary.whole? (b : Binary) : Option Nat :=
  let (num, den) := b.fraction
  if num % den = 0 then some (num / den) else none

/-- The absolute value of a decimal that is whole. -/
def Written.size? (w : Written) : Option Nat :=
  if w.isPlain then some (value w.whole)
  else do (← Binary.ofFloat? (← nearest? (value w.digits) w.scale)).whole?

/-- The decimal with the given absolute value, if it is in range. The least number
of 64 bits is in range only if it is written plainly. -/
def Written.bounded? (w : Written) (size : Nat) : Option Int :=
  let n : Int := if w.negative then -size else size
  if (-2 ^ 63 < n ∨ (w.isPlain ∧ n = -2 ^ 63)) ∧ n < 2 ^ 63 then some n else none

/-- The whole number that a decimal stands for. -/
def Written.whole? (w : Written) : Option Int := w.size?.bind w.bounded?

/-- The whole number that a text stands for. -/
def whole? (text : String) : Option Int := (written? text).bind Written.whole?

/-- A whole number that is read has 64 bits. -/
theorem whole?_bounds {text : String} {n : Int} (h : whole? text = some n) :
    -2 ^ 63 ≤ n ∧ n < 2 ^ 63 := by
  simp only [whole?, Written.whole?, Option.bind_eq_some_iff] at h
  obtain ⟨w, -, size, -, h⟩ := h
  simp only [Written.bounded?, Option.ite_none_right_eq_some, Option.some.injEq] at h
  obtain ⟨h, rfl⟩ := h
  omega

end JobQueue.Decimal
