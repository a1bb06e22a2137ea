import JobQueue.Job.Status
import JobQueue.Time.Format

/-!
# JobQueue.Job.Event

The audit entry of one change of status.
-/

namespace JobQueue

/-- A change of status. -/
structure Event where
  /-- When it happened. -/
  timestamp : Instant
  /-- The status entered. -/
  status : Status
  /-- Why a job failed, was cancelled or was taken back; empty otherwise. -/
  reason : String
  deriving DecidableEq

namespace Event

/-- Events as documents. The reason may be left out. -/
def format : Format Event where
  name := "job_pool::job::model::Event"
  read := Format.readRecord "Event"
    [Format.check "timestamp" Instant.format, Format.check "status" Status.format,
      Format.check "reason" Format.string]
    fun src => do
      let timestamp ← src.field 0 "timestamp" Instant.format
      let status ← src.field 1 "status" Status.format
      let reason ← src.fieldOrDefault 2 "reason" Format.string ""
      return ⟨timestamp, status, reason⟩
  write e := .ok (.object
    [("timestamp", .str (Rfc3339.text e.timestamp)), ("status", .str e.status.name),
      ("reason", .str e.reason)])

/-- The document of an event as the log keeps it, with the time first. -/
def entry (e : Event) : Json :=
  .obj [("timestamp", .str (Rfc3339.text e.timestamp)), ("status", .str e.status.name),
    ("reason", .str e.reason)]

end Event

end JobQueue
