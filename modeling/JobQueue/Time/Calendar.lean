import JobQueue.Power

/-!
# JobQueue.Time.Calendar

The proleptic Gregorian calendar: days counted from 1970-01-01 and dates of
year, month and day.

- `yearStart y` is the day on which year `y` begins; `yearOf` inverts it: a guess
  from the mean length of a year is off by at most one, and is corrected.
- Within a year a day is found by walking the twelve month lengths.
-/

namespace JobQueue.Calendar

/-! ## Years -/

/-- Whether a year has 366 days. -/
def isLeap (y : Int) : Bool := y % 4 == 0 && (y % 100 != 0 || y % 400 == 0)

/-- The day on which a year begins. -/
def yearStart (y : Int) : Int :=
  365 * (y - 1) + (y - 1) / 4 - (y - 1) / 100 + (y - 1) / 400 - 719162

/-- A year within one of the year of a day. -/
def yearGuess (day : Int) : Int := (day + 719162) * 400 / 146097 + 1

/-- The year of a day. -/
def yearOf (day : Int) : Int :=
  let y := yearGuess day
  if day < yearStart y then y - 1
  else if yearStart (y + 1) ≤ day then y + 1
  else y

/-- The year of a day has begun on that day, and the next has not. -/
theorem yearOf_bounds (day : Int) :
    yearStart (yearOf day) ≤ day ∧ day < yearStart (yearOf day + 1) := by
  unfold yearOf yearGuess yearStart
  dsimp only
  split
  · constructor <;> omega
  · split
    · constructor <;> omega
    · constructor <;> omega

/-! ## Days -/

/-- The place of a day within a period of 400 years. -/
def cycleDay (day : Int) : Int := (day + 719528) % 146097

/-- The day a number of days later. Days of a period and days of a sum are counted in
32 bits. -/
def addDays? (day days : Int) : Option Int :=
  if -2 ^ 31 ≤ days ∧ cycleDay day + days < 2 ^ 31 then some (day + days) else none

/-! ## Months -/

/-- The lengths of the months of a year. -/
def monthLengths (leap : Bool) : List Nat :=
  [31, if leap then 29 else 28, 31, 30, 31, 30, 31, 31, 30, 31, 30, 31]

/-- The month and day at an offset into a run of months that begins with `month`. -/
def walk : List Nat → Nat → Nat → Nat × Nat
  | [], month, offset => (month, offset + 1)
  | n :: ns, month, offset =>
      if offset < n then (month, offset + 1) else walk ns (month + 1) (offset - n)

/-- The length of a month, zero where there is no such month. -/
def monthLength (leap : Bool) (month : Nat) : Nat :=
  if month = 0 then 0 else ((monthLengths leap)[month - 1]?).getD 0

/-- The days of a year before a month. -/
def daysBefore (leap : Bool) (month : Nat) : Nat :=
  ((monthLengths leap).take (month - 1)).foldl (· + ·) 0

/-! ## Dates -/

/-- A date. -/
structure Date where
  /-- The year; zero and below are before the common era. -/
  year : Int
  /-- The month, from 1. -/
  month : Nat
  /-- The day of the month, from 1. -/
  day : Nat
  deriving DecidableEq

/-- Whether a date is one of the calendar. -/
def Date.isValid (d : Date) : Bool :=
  1 ≤ d.day && d.day ≤ monthLength (isLeap d.year) d.month

/-- The date of a day. -/
def Date.ofDay (n : Int) : Date :=
  let y := yearOf n
  let (month, day) := walk (monthLengths (isLeap y)) 1 (n - yearStart y).toNat
  ⟨y, month, day⟩

/-- The day of a date. -/
def Date.toDay (d : Date) : Int :=
  yearStart d.year + (daysBefore (isLeap d.year) d.month + (d.day - 1) : Nat)

end JobQueue.Calendar
