import JobQueue.Time.Duration

/-!
# JobQueue.Time.Span

Lengths of time with a direction, by which instants move: at most `2 ^ 63 - 1`
milliseconds forward or backward. The whole seconds of a span and the nanoseconds
beyond them have its sign.
-/

namespace JobQueue

/-- A length of time forward, or backward if it is negative. -/
structure Span where
  /-- The length in nanoseconds. -/
  nanos : Int
  /-- The milliseconds fit in 63 bits. -/
  natAbs_le : nanos.natAbs ≤ (2 ^ 63 - 1) * 10 ^ 6

namespace Span

/-- The span of a length of time forward, unless that is too long. -/
def ofDuration? (d : Duration) : Option Span :=
  if h : d.nanos ≤ (2 ^ 63 - 1) * 10 ^ 6 then some ⟨d.nanos, h⟩ else none

/-- The span of whole seconds, unless they are too many. -/
def ofSecs? (n : Int) : Option Span :=
  if h : (n * 10 ^ 9).natAbs ≤ (2 ^ 63 - 1) * 10 ^ 6 then some ⟨n * 10 ^ 9, h⟩ else none

/-- The same length in the other direction. -/
def neg (s : Span) : Span := ⟨-s.nanos, by rw [Int.natAbs_neg]; exact s.natAbs_le⟩

/-- The whole seconds. -/
def secs (s : Span) : Int := s.nanos.tdiv (10 ^ 9)

/-- The nanoseconds beyond the whole seconds. -/
def subsec (s : Span) : Int := s.nanos.tmod (10 ^ 9)

end Span

end JobQueue
