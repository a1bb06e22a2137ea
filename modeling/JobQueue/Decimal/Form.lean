import JobQueue.Decimal.Shortest

/-!
# JobQueue.Decimal.Form

Double-precision numbers as text: the shortest decimal, written positionally
between two exponents and with an exponent outside them. Positional numbers
always have a point and a digit after it.
-/

namespace JobQueue.Decimal

open Text

/-- The choices that a form of numbers leaves open. -/
structure Form where
  /-- The least exponent that is written positionally. -/
  least : Int
  /-- The greatest exponent that is written positionally. -/
  greatest : Int
  /-- What stands before an exponent that is not negative. -/
  plus : List Char

namespace Form

/-- Digits around a point that follows the digit of `10 ^ 0`. -/
def positional (digits : List Char) (exponent : Int) : List Char :=
  if exponent < 0 then
    '0' :: '.' :: List.replicate (-exponent - 1).toNat '0' ++ digits
  else
    let n := exponent.toNat + 1
    let whole := digits.take n
    let rest := digits.drop n
    whole ++ List.replicate (n - whole.length) '0' ++ '.' :: (if rest.isEmpty then ['0'] else rest)

/-- Digits with a point after the first, and an exponent. -/
def exponential (plus : List Char) (digits : List Char) (exponent : Int) : List Char :=
  let point := if digits.length ≤ 1 then [] else '.' :: digits.drop 1
  digits.take 1 ++ point ++ 'e' :: (if exponent < 0 then [] else plus) ++ signed exponent

/-- A decimal as text. -/
def scientific (style : Form) (s : Scientific) : List Char :=
  let digits := decimal s.digits
  if style.least ≤ s.exponent && s.exponent ≤ style.greatest then
    positional digits s.exponent
  else
    exponential style.plus digits s.exponent

/-- A finite number as text. -/
def binary (style : Form) (b : Binary) : List Char :=
  (if b.negative then ['-'] else []) ++ style.scientific b.shortest

/-- A number as text, with words for the infinities and for what is no number. -/
def chars (style : Form) (x : Float) : List Char :=
  match Binary.ofFloat? x with
  | some b => style.binary b
  | none =>
      if x.isNaN then ['N', 'a', 'N']
      else if x < 0 then ['-', 'i', 'n', 'f']
      else ['i', 'n', 'f']

end Form

end JobQueue.Decimal
