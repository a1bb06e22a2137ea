import JobQueue.Text.Blank
import JobQueue.Text.Bytes
import JobQueue.Text.Digits
import JobQueue.Time.Calendar
import JobQueue.Time.Instant

/-!
# JobQueue.Time.Rfc3339

Instants as RFC 3339 texts in UTC.

- `text` writes as many of 0, 3, 6 or 9 digits of the second as are exact. Years
  outside 0 to 9999 carry a sign. A leap second is second 60.
- `parseStrict` reads the fixed layout, with `T`, `t` or a blank between date and
  time, any digits of the second and any offset of less than a day.
- `parseLenient` also takes signed years, short fields and blanks between fields.
-/

namespace JobQueue.Rfc3339

open Text Calendar

/-! ## Writing -/

/-- The parts of an instant as they are written. -/
structure Fields where
  /-- The date. -/
  date : Date
  /-- The hour, minute and second; the second is 60 within a leap second. -/
  hour : Nat
  minute : Nat
  second : Nat
  /-- The nanoseconds of the second. -/
  nanos : Nat
  deriving DecidableEq

/-- The parts of an instant. -/
def fields (t : Instant) : Fields :=
  let clock := (t.secs % 86400).toNat
  { date := Date.ofDay (t.secs / 86400)
    hour := clock / 3600
    minute := clock / 60 % 60
    second := clock % 60 + t.nanos / 10 ^ 9
    nanos := t.nanos % 10 ^ 9 }

/-- A year: four digits, or a sign and at least four. -/
def yearText (y : Int) : List Char :=
  if 0 ≤ y && y ≤ 9999 then padded 4 y.toNat
  else
    let digits := decimal y.natAbs
    (if y < 0 then '-' else '+') :: (List.replicate (4 - digits.length) '0' ++ digits)

/-- Date and time to the second. -/
def civilText (f : Fields) : List Char :=
  yearText f.date.year ++ '-' :: padded 2 f.date.month ++ '-' :: padded 2 f.date.day ++
    'T' :: padded 2 f.hour ++ ':' :: padded 2 f.minute ++ ':' :: padded 2 f.second

/-- The digits of the second that are needed. -/
def fractionText (nanos : Nat) : List Char :=
  if nanos = 0 then []
  else if nanos % 10 ^ 6 = 0 then '.' :: padded 3 (nanos / 10 ^ 6)
  else if nanos % 10 ^ 3 = 0 then '.' :: padded 6 (nanos / 10 ^ 3)
  else '.' :: padded 9 nanos

/-- The characters of an instant. -/
def chars (t : Instant) : List Char :=
  let f := fields t
  civilText f ++ fractionText f.nanos ++ ['Z']

/-- The text of an instant. -/
def text (t : Instant) : String := String.ofList (chars t)

/-! ## Reading -/

/-- Why a text is no instant. -/
inductive Fault where
  /-- A field has a value that no date or time has. -/
  | outOfRange
  /-- The offset leads out of the calendar. -/
  | impossible
  /-- A character has no place where it stands. -/
  | invalid
  /-- The text ends too early. -/
  | tooShort
  /-- The text goes on after the instant. -/
  | trailing
  deriving DecidableEq

/-- The wording of a fault. -/
def Fault.message : Fault → String
  | .outOfRange => "input is out of range"
  | .impossible => "no possible date and time matching input"
  | .invalid => "input contains invalid characters"
  | .tooShort => "premature end of input"
  | .trailing => "trailing input"

/-- A reader of the front of a text. -/
abbrev Reader (α : Type) := List Char → Except Fault (α × List Char)

/-- Exactly `n` digits. -/
def fixed (n : Nat) : Reader Nat := fun cs =>
  let ds := cs.take n
  if ds.length = n && ds.all isDigit then .ok (value ds, cs.drop n) else .error .invalid

/-- One of the given characters. -/
def oneOf (allowed : List Char) : Reader Unit := fun
  | c :: cs => if allowed.contains c then .ok ((), cs) else .error .invalid
  | [] => .error .tooShort

/-- From one to `limit` digits, and no more of them than are there. -/
def upTo (limit : Nat) : Reader Nat := fun cs =>
  match cs with
  | [] => .error .tooShort
  | c :: _ =>
      if isDigit c then
        let ds := (cs.takeWhile isDigit).take limit
        .ok (value ds, cs.drop ds.length)
      else .error .invalid

/-- The nanoseconds of a second after its point; digits past the ninth are dropped. -/
def fraction : Reader Nat := fun cs =>
  match cs with
  | [] => .error .tooShort
  | c :: _ =>
      if isDigit c then
        let ds := cs.takeWhile isDigit
        let kept := ds.take 9
        .ok (value kept * 10 ^ (9 - kept.length), cs.drop ds.length)
      else .error .invalid

/-- The nanoseconds of a second, if a point follows. -/
def optionalFraction : Reader Nat := fun
  | '.' :: cs => fraction cs
  | cs => .ok (0, cs)

/-- The minutes of an offset. -/
def offsetMinutes : Reader Int := fun
  | m₁ :: m₂ :: cs =>
      if isDigit m₁ && isDigit m₂ then
        if m₁ ≤ '5' then .ok ((value [m₁, m₂] : Nat), cs) else .error .outOfRange
      else .error .invalid
  | [c] => if c.utf8Size < 2 then .error .tooShort else .error .invalid
  | [] => .error .tooShort

/-- An offset from UTC in seconds: `Z`, or a sign, two digits of hours, what
`colon` takes, and two digits of minutes. -/
def offset (colon : Reader Unit) : Reader Int := fun cs =>
  match cs with
  | [] => .error .tooShort
  | c :: cs =>
      if c == 'Z' || c == 'z' then .ok (0, cs)
      else if c == '+' || c == '-' || c == '−' then
        match cs with
        | h₁ :: h₂ :: rest =>
            if isDigit h₁ && isDigit h₂ then do
              let (_, rest) ← colon rest
              let (minutes, rest) ← offsetMinutes rest
              let secs := (value [h₁, h₂] : Nat) * 3600 + minutes * 60
              .ok (if c == '+' then secs else -secs, rest)
            else .error .invalid
        | [h] => if h.utf8Size < 2 then .error .tooShort else .error .invalid
        | [] => .error .tooShort
      else .error .invalid

/-- The instant of a date and time at an offset. Second 60 is the leap second of
the second before it. -/
def toInstant (f : Fields) (offset : Int) : Except Fault Instant :=
  if !f.date.isValid || f.date.year < -262143 || 262142 < f.date.year then .error .outOfRange
  else if 23 < f.hour || 59 < f.minute || 60 < f.second then .error .outOfRange
  else if offset ≤ -86400 || 86400 ≤ offset then .error .outOfRange
  else
    let leap := f.second = 60
    let clock := f.hour * 3600 + f.minute * 60 + (if leap then 59 else f.second)
    let nanos := f.nanos + (if leap then 10 ^ 9 else 0)
    match Instant.of? (f.date.toDay * 86400 + (clock : Nat) - offset) nanos with
    | some t => .ok t
    | none => .error .impossible

/-- The date of a fixed layout; it is looked up before the time is read. -/
def strictDate : Reader Date := fun cs => do
  let (year, cs) ← fixed 4 cs
  let (_, cs) ← oneOf ['-'] cs
  let (month, cs) ← fixed 2 cs
  let (_, cs) ← oneOf ['-'] cs
  let (day, cs) ← fixed 2 cs
  let date : Date := ⟨year, month, day⟩
  if date.isValid then .ok (date, cs) else .error .outOfRange

/-- The time of a fixed layout. -/
def strictTime (date : Date) : Reader Fields := fun cs => do
  let (hour, cs) ← fixed 2 cs
  let (_, cs) ← oneOf [':'] cs
  let (minute, cs) ← fixed 2 cs
  let (_, cs) ← oneOf [':'] cs
  let (second, cs) ← fixed 2 cs
  let (nanos, cs) ← optionalFraction cs
  if hour ≤ 23 && minute ≤ 59 && second ≤ 60 then
    .ok (⟨date, hour, minute, second, nanos⟩, cs)
  else
    .error .outOfRange

/-- Read an instant in the fixed layout. -/
def parseStrict (s : String) : Except Fault Instant := do
  let cs := s.toList
  if byteCount cs < 19 then throw .tooShort
  let (date, cs) ← strictDate cs
  let (_, cs) ← oneOf ['T', 't', ' '] cs
  let (f, cs) ← strictTime date cs
  let (east, cs) ← offset (oneOf [':']) cs
  if !cs.isEmpty then throw .trailing
  toInstant f east

/-- A field after blanks, within bounds. -/
def lenientField (limit lo hi : Nat) : Reader Nat := fun cs => do
  let (n, cs) ← upTo limit (trimLeft cs)
  if lo ≤ n && n ≤ hi then .ok (n, cs) else .error .outOfRange

/-- A year after blanks: a sign and any digits, or up to four digits. -/
def lenientYear : Reader Int := fun cs =>
  let within (y : Int) (cs : List Char) : Except Fault (Int × List Char) :=
    if -2 ^ 31 ≤ y && y < 2 ^ 31 then .ok (y, cs) else .error .outOfRange
  match trimLeft cs with
  | '-' :: cs => do
      let (n, rest) ← upTo cs.length cs
      within (-(n : Int)) rest
  | '+' :: cs => do
      let (n, rest) ← upTo cs.length cs
      within n rest
  | cs => do
      let (n, rest) ← upTo 4 cs
      within n rest

/-- A mark after blanks. -/
def lenientMark (c : Char) : Reader Unit := fun cs => oneOf [c] (trimLeft cs)

/-- Read an instant with blanks between its fields and fields of any width. -/
def parseLenient (s : String) : Except Fault Instant := do
  let (year, cs) ← lenientYear s.toList
  let (_, cs) ← lenientMark '-' cs
  let (month, cs) ← lenientField 2 1 12 cs
  let (_, cs) ← lenientMark '-' cs
  let (day, cs) ← lenientField 2 1 31 cs
  let (_, cs) ← oneOf ['T', 't', ' '] cs
  let (hour, cs) ← lenientField 2 0 23 cs
  let (_, cs) ← lenientMark ':' cs
  let (minute, cs) ← lenientField 2 0 59 cs
  let (_, cs) ← lenientMark ':' cs
  let (second, cs) ← lenientField 2 0 60 cs
  let (nanos, cs) ← optionalFraction cs
  let cs := trimLeft cs
  let (east, cs) ←
    if (cs.take 3).map Char.toUpper == ['U', 'T', 'C'] then
      (.ok (0, cs.drop 3) : Except Fault (Int × List Char))
    else
      offset (fun cs => .ok ((), cs.dropWhile fun c => c == ':' || isBlank c)) cs
  if !(trimLeft cs).isEmpty then throw .trailing
  toInstant ⟨⟨year, month, day⟩, hour, minute, second, nanos⟩ east

end JobQueue.Rfc3339
