import JobQueue.Time.Calendar
import JobQueue.Time.Span

/-!
# JobQueue.Time.Instant

Points in time: seconds from 1970-01-01 UTC and nanoseconds. A second may run on
for one more second, the leap second: its nanoseconds go up to two billion. The
calendar has leap seconds at the ends of minutes only, but instants may be within
one after any second. The range is that of the years -262143 to 262142.

- `Instant.after? t d` is `t + d`, if the sum is in range.
- `Instant.before t d` is `t - d`, or the earliest instant.

A sum or a difference that stays inside a leap second keeps it; one that leaves
it counts the leap second as no time at all.
-/

namespace JobQueue

/-- Seconds and nanoseconds that name an instant. -/
abbrev Instant.Valid (secs : Int) (nanos : Nat) : Prop :=
  -8334601228800 ≤ secs ∧ secs ≤ 8210266876799 ∧ nanos < 2 * 10 ^ 9

/-- A point in time. -/
structure Instant where
  /-- Seconds from 1970-01-01 UTC. -/
  secs : Int
  /-- Nanoseconds into the second, past a billion within a leap second. -/
  nanos : Nat
  /-- The two name an instant. -/
  valid : Instant.Valid secs nanos
  deriving DecidableEq

namespace Instant

/-! ## Making instants -/

/-- The instant of the given parts, if they name one. -/
def of? (secs : Int) (nanos : Nat) : Option Instant :=
  if h : Valid secs nanos then some ⟨secs, nanos, h⟩ else none

/-- The instant at a count of nanoseconds from 1970-01-01, outside any leap second. -/
def ofNanos? (n : Int) : Option Instant :=
  of? (n / 10 ^ 9) (n % 10 ^ 9).toNat

/-- The earliest instant. -/
def earliest : Instant := ⟨-8334601228800, 0, by decide⟩

/-- The latest instant outside a leap second. -/
def latest : Instant := ⟨8210266876799, 999999999, by decide⟩

/-- Whether the instant lies within a leap second. -/
def isLeap (t : Instant) : Bool := 10 ^ 9 ≤ t.nanos

/-- The nanoseconds from 1970-01-01; a leap second overlaps the second after it. -/
def toNanos (t : Instant) : Int := t.secs * 10 ^ 9 + t.nanos

/-! ## Order -/

/-- Seconds decide, then nanoseconds. -/
instance : LE Instant := ⟨fun a b => a.secs < b.secs ∨ (a.secs = b.secs ∧ a.nanos ≤ b.nanos)⟩
instance : LT Instant := ⟨fun a b => a.secs < b.secs ∨ (a.secs = b.secs ∧ a.nanos < b.nanos)⟩
instance (a b : Instant) : Decidable (a ≤ b) :=
  inferInstanceAs (Decidable (a.secs < b.secs ∨ (a.secs = b.secs ∧ a.nanos ≤ b.nanos)))
instance (a b : Instant) : Decidable (a < b) :=
  inferInstanceAs (Decidable (a.secs < b.secs ∨ (a.secs = b.secs ∧ a.nanos < b.nanos)))

/-! ## Moving in time -/

/-- Where a move from a time of day leads: a time of day, and the seconds of the whole days
on the way. -/
structure Landing where
  /-- The second of the day. -/
  second : Int
  /-- The nanoseconds into the second. -/
  nanos : Int
  /-- The seconds that are left to the date. -/
  carried : Int

/-- Seconds beyond a day are left to the date. -/
def Landing.ofSecs (secs nanos : Int) : Landing := ⟨secs % 86400, nanos, secs - secs % 86400⟩

/-- Nanoseconds beyond a second are carried to the seconds. -/
def Landing.carry (secs nanos : Int) : Landing :=
  if nanos < 0 then .ofSecs (secs - 1) (nanos + 10 ^ 9)
  else if 10 ^ 9 ≤ nanos then .ofSecs (secs + 1) (nanos - 10 ^ 9)
  else .ofSecs secs nanos

/-- Where a span leads from a time of day. A leap second that is left forward has not begun,
and one that is left backward has become the next second. -/
def landing (second nanos : Int) (s : Span) : Landing :=
  if nanos < 10 ^ 9 then .carry (second + s.secs) (nanos + s.subsec)
  else if 0 < s.secs ∨ 2 * 10 ^ 9 ≤ nanos + s.subsec then
    .carry (second + s.secs) (nanos - 10 ^ 9 + s.subsec)
  else if s.secs < 0 then .carry (second + 1 + s.secs) (nanos - 10 ^ 9 + s.subsec)
  else ⟨second, nanos + s.subsec, 0⟩

/-- The instant that a move from a day leads to, if it is in range. -/
def Landing.on? (l : Landing) (day : Int) : Option Instant := do
  let carried ← Span.ofSecs? l.carried
  let day ← Calendar.addDays? day (carried.secs / 86400)
  of? (day * 86400 + l.second) l.nanos.toNat

/-- The instant a span later, if it is in range. -/
def add? (t : Instant) (s : Span) : Option Instant :=
  (landing (t.secs % 86400) t.nanos s).on? (t.secs / 86400)

/-- The instant a length of time later, if it is in range. -/
def after? (t : Instant) (d : Duration) : Option Instant := (Span.ofDuration? d).bind t.add?

/-- The instant a length of time earlier, if it is in range. -/
def before? (t : Instant) (d : Duration) : Option Instant :=
  (Span.ofDuration? d).bind fun s => t.add? s.neg

/-- The instant a length of time earlier, or the earliest there is. -/
def before (t : Instant) (d : Duration) : Instant := (t.before? d).getD earliest

/-- What a leap second that one of two instants lies within adds to the time between
their times of day. -/
def leapBetween (a b : Instant) : Int :=
  if a.isLeap && a.secs % 86400 < b.secs % 86400 then 10 ^ 9
  else if b.isLeap && b.secs % 86400 < a.secs % 86400 then -10 ^ 9
  else 0

/-- The nanoseconds from one instant to another. Of leap seconds only those count
that the two lie within. -/
def nanosFrom (a b : Instant) : Int := b.toNanos - a.toNanos + a.leapBetween b

/-- The instant without the part of it below a microsecond. -/
def truncMicros (t : Instant) : Instant :=
  ⟨t.secs, t.nanos / 1000 * 1000, by
    obtain ⟨h₁, h₂, h₃⟩ := t.valid
    exact ⟨h₁, h₂, by omega⟩⟩

end Instant

end JobQueue
