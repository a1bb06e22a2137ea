import JobQueue.Job.Event
import JobQueue.Job.Id

/-!
# JobQueue.Job.Basic

One unit of work: who handles it, with which payload, and how far it is.
-/

namespace JobQueue

/-- A job. -/
structure Job where
  id : JobId
  /-- The name of the task that handles the job. -/
  name : String
  /-- Together with the name it identifies jobs of which one at a time is wanted. -/
  label : String
  /-- The encoded payload. -/
  data : Json
  status : Status
  created : Instant
  /-- The job is not claimed before this instant. -/
  available : Instant
  /-- The start of the last attempt. -/
  started : Option Instant
  /-- The end of the last attempt. -/
  ended : Option Instant
  /-- When the job became completed, failed or cancelled. -/
  finished : Option Instant
  /-- How often the job was claimed. -/
  attempts : UInt32
  events : List Event
  /-- What the handler returned, for a completed job. -/
  result : Option Json
  /-- The last failure that allowed another attempt. -/
  error : Option String
  /-- Why the job was cancelled. -/
  reason : Option String

namespace Job

/-- A fresh job. -/
def new (id : JobId) (name label : String) (data : Json) (created available : Instant) : Job where
  id := id
  name := name
  label := label
  data := data
  status := .enqueued
  created := created
  available := available
  started := none
  ended := none
  finished := none
  attempts := 0
  events := [⟨created, .enqueued, ""⟩]
  result := none
  error := none
  reason := none

/-- Whether the job may be claimed at an instant. -/
def isEligible (j : Job) (now : Instant) : Bool :=
  j.status == .enqueued && decide (j.available ≤ now)

/-! ## Documents -/

/-- The fields of a job, in the order of their declaration. -/
def fieldChecks : List Format.FieldCheck :=
  [ Format.check "id" JobId.format, Format.check "name" .string, Format.check "label" .string,
    Format.check "data" .document, Format.check "status" Status.format,
    Format.check "created" Instant.format, Format.check "available" Instant.format,
    Format.check "started" (.option Instant.format),
    Format.check "ended" (.option Instant.format),
    Format.check "finished" (.option Instant.format), Format.check "attempts" .u32,
    Format.check "events" (.list Event.format), Format.check "result" (.option .document),
    Format.check "error" (.option .string), Format.check "reason" (.option .string) ]

/-- The fields of a job from what it is read from. Those that may be empty may
also be missing. -/
def ofSource (src : Format.Source) : Except Mismatch Job := do
  let id ← src.field 0 "id" JobId.format
  let name ← src.field 1 "name" .string
  let label ← src.field 2 "label" .string
  let data ← src.field 3 "data" .document
  let status ← src.field 4 "status" Status.format
  let created ← src.field 5 "created" Instant.format
  let available ← src.field 6 "available" Instant.format
  let started ← src.fieldOr 7 "started" (.option Instant.format) none
  let ended ← src.fieldOr 8 "ended" (.option Instant.format) none
  let finished ← src.fieldOr 9 "finished" (.option Instant.format) none
  let attempts ← src.field 10 "attempts" .u32
  let events ← src.field 11 "events" (.list Event.format)
  let result ← src.fieldOr 12 "result" (.option .document) none
  let error ← src.fieldOr 13 "error" (.option .string) none
  let reason ← src.fieldOr 14 "reason" (.option .string) none
  return ⟨id, name, label, data, status, created, available, started, ended, finished,
    attempts, events, result, error, reason⟩

/-- The members of the document of a job. -/
def toMembers (j : Job) : Except Unwritable (List (String × Json)) := do
  let instant := Json.optional fun t => Json.str (Rfc3339.text t)
  return [ ("id", .str j.id.text), ("name", .str j.name), ("label", .str j.label),
    ("data", j.data), ("status", .str j.status.name),
    ("created", .str (Rfc3339.text j.created)),
    ("available", .str (Rfc3339.text j.available)), ("started", instant j.started),
    ("ended", instant j.ended), ("finished", instant j.finished),
    ("attempts", .int j.attempts.toNat), ("events", ← (Format.list Event.format).write j.events),
    ("result", .optional (fun v => v) j.result), ("error", .optional .str j.error),
    ("reason", .optional .str j.reason) ]

/-- Jobs as documents. -/
def format : Format Job where
  name := "job_pool::job::model::Job"
  read := Format.readRecord "Job" fieldChecks ofSource
  write j := do return .object (← j.toMembers)

end Job

end JobQueue
