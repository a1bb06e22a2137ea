import JobQueue.Codec.Format
import JobQueue.Time.Duration

/-!
# JobQueue.Blueprint

The template of a job: what it carries, under which label, and how long it waits
before it may be claimed.
-/

namespace JobQueue

/-- The template of a job. -/
structure Blueprint where
  label : String
  /-- The encoded payload. -/
  data : Json
  /-- The time from the insertion to the first claim. -/
  delay : Duration

/-- The template for a payload. -/
def Blueprint.ofPayload {α : Type} (f : Format α) (label : String) (payload : α)
    (delay : Duration) : Except CodecError Blueprint := do
  return ⟨label, ← f.encode payload, delay⟩

/-- A template and the time from the end of one of its jobs to the next. -/
structure Periodic where
  every : Duration
  blueprint : Blueprint

end JobQueue
