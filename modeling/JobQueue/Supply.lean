import JobQueue.Job.Id
import JobQueue.Time.Instant

/-!
# JobQueue.Supply

Where the present and new identities come from. The clock may show anything from one
reading to the next, as one that is set while it runs; identities are drawn by number
and differ from each other.
-/

namespace JobQueue

/-- A clock and a source of identities. -/
structure Supply where
  /-- What the clock shows, reading after reading. -/
  readings : Nat → Instant
  /-- How many identities were drawn. -/
  drawn : Nat
  /-- How much later it has become meanwhile. -/
  passed : Duration := .zero

namespace Supply

/-- A clock that stands still, and no identity drawn. -/
def still (t : Instant) : Supply := { readings := fun _ => t, drawn := 0 }

/-- What the clock shows some readings from now. It does not go past the end of the calendar. -/
def reading (s : Supply) (n : Nat) : Instant :=
  ((s.readings n).after? s.passed).getD (s.readings n)

/-- The next reading of the clock. -/
def clock (s : Supply) : Instant := s.reading 0

/-- Let time pass. -/
def pass (s : Supply) (d : Duration) : Supply :=
  { s with passed := .clamp (s.passed.nanos + d.nanos) }

/-- Read the clock. -/
def read (s : Supply) : Instant × Supply :=
  (s.clock, { s with readings := fun n => s.readings (n + 1) })

/-- Draw an identity. -/
def draw (s : Supply) : JobId × Supply :=
  (.numbered s.drawn, { s with drawn := s.drawn + 1 })

end Supply

end JobQueue
