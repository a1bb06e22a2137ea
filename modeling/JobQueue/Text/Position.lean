import JobQueue.Text.Digits
import JobQueue.Text.Pieces

/-!
# JobQueue.Text.Position

Texts that end with a position, as in `odd name at line 3 column 14`.

- `Position.read?` takes the position off a text, `Position.suffix` writes one.
- `Position.settled` writes the position of a text anew. Line zero is no line, so a
  position there is left out.
-/

namespace JobQueue.Text

/-- A place in a text: a line, counted from one, and a column in it. -/
structure Position where
  line : Nat
  column : Nat
  deriving DecidableEq

namespace Position

/-- What stands before the line of a position. -/
def lineMark : List Char := " at line ".toList

/-- What stands before the column of a position. -/
def columnMark : List Char := " column ".toList

/-- A position at the end of a text. -/
def suffix (p : Position) : List Char :=
  lineMark ++ decimal p.line ++ columnMark ++ decimal p.column

/-- The number of a run of digits that is not empty; it fits in 64 bits. -/
def number? (digits : List Char) : Option Nat :=
  if digits ≠ [] ∧ digits.all isDigit ∧ value digits < 2 ^ 64 then some (value digits) else none

/-- The position after the mark of its line. -/
def afterMark? (cs : List Char) : Option Position := do
  let line ← number? (cs.takeWhile isDigit)
  let column ← number? (← after? columnMark (cs.dropWhile isDigit))
  return ⟨line, column⟩

/-- The text before its position, and the position. -/
def read? (cs : List Char) : Option (List Char × Position) := do
  let (text, rest) ← cutLast? lineMark cs
  return (text, ← afterMark? rest)

/-- A text with its position written anew, or without it at line zero. -/
def settled (s : String) : String :=
  match read? s.toList with
  | none => s
  | some (text, p) =>
      if p.line = 0 then String.ofList text else String.ofList (text ++ p.suffix)

/-- What is read off a text begins with the mark of its line. -/
theorem eq_of_read? {cs text : List Char} {p : Position} (h : read? cs = some (text, p)) :
    ∃ rest, cs = text ++ lineMark ++ rest ∧ afterMark? rest = some p := by
  simp only [read?, bind, Option.bind_eq_some_iff] at h
  obtain ⟨⟨t, rest⟩, hc, q, hq, he⟩ := h
  cases he
  exact ⟨rest, eq_of_cutLast? hc, hq⟩

end Position

end JobQueue.Text
