import JobQueue.Decimal.Binary
import JobQueue.Time.Duration

/-!
# JobQueue.Backoff

How long to wait before another attempt: `min * factor ^ (n - 1)` after attempt
`n`, and never more than `max`.

The product is computed in double precision and rounded to the nearest
nanosecond. A product that is infinite or no number counts as too long.
-/

namespace JobQueue

namespace Duration

/-- The length in seconds, as a double-precision number. -/
def toFloat (d : Duration) : Float :=
  d.secs.toUInt64.toFloat + d.subsec.toUInt64.toFloat / 1e9

/-- A number of seconds as a length, rounded to the nearest nanosecond. -/
def ofFloat (secs : Float) : Duration :=
  match Decimal.Binary.ofFloat? secs with
  | some b => clamp (b.scaled (10 ^ 9))
  | none => max

end Duration

/-- A power by repeated squaring, times what has been gathered so far. -/
def powerFrom (gathered square : Float) (n : Nat) : Float :=
  let gathered := if n % 2 = 1 then gathered * square else gathered
  if n < 2 then gathered else powerFrom gathered (square * square) (n / 2)
termination_by n

/-- A power with a natural exponent. -/
def power (x : Float) (n : Nat) : Float := powerFrom 1 x n

/-- How the delay before another attempt grows. -/
structure Backoff where
  /-- The delay after the first attempt. -/
  min : Duration
  /-- The longest delay. -/
  max : Duration
  /-- How much longer each delay is than the one before. -/
  factor : Float
  deriving DecidableEq

/-- A delay before the present. -/
inductive NegativeDelay where
  | negativeDelay
  deriving DecidableEq

/-- The wording for a negative delay. -/
def NegativeDelay.message (_ : NegativeDelay) : String :=
  "cannot convert float seconds to Duration: value is negative"

namespace Backoff

/-- The same delay after every attempt. -/
def fixed (d : Duration) : Backoff := ⟨d, d, 1⟩

/-- One second, doubled up to five minutes. -/
def standard : Backoff := ⟨.ofSecs 1, .ofSecs 300, 2⟩

/-- The exponent after an attempt; it stays below 31 bits. -/
def exponent (attempt : UInt32) : Nat := Nat.min (attempt.toNat - 1) (2 ^ 31 - 1)

/-- The delay in seconds after an attempt, before it is cut off at `max`. -/
def seconds (b : Backoff) (attempt : UInt32) : Float :=
  b.min.toFloat * power b.factor (exponent attempt)

/-- The delay after an attempt. -/
def delay (b : Backoff) (attempt : UInt32) : Except NegativeDelay Duration :=
  let secs := b.seconds attempt
  if !secs.isFinite || secs ≥ b.max.toFloat then .ok b.max
  else if secs < 0 then .error .negativeDelay
  else .ok (.longer (.ofFloat secs) b.min)

/-- A delay is the longest one or at least the shortest one. -/
theorem delay_eq_max_or_min_le {b : Backoff} {attempt : UInt32} {d : Duration}
    (h : b.delay attempt = .ok d) : d = b.max ∨ b.min ≤ d := by
  unfold delay at h
  dsimp only at h
  split at h
  · exact .inl (by simpa using h.symm)
  · split at h
    · simp at h
    · simp only [Except.ok.injEq] at h
      exact .inr (h ▸ Duration.le_longer_right _ _)

end Backoff

end JobQueue
