import JobQueue.Codec.Variant

/-!
# JobQueue.Job.Status

Where a job stands between its insertion and its end. The terminal statuses
never change again.
-/

namespace JobQueue

/-- The status of a job. -/
inductive Status where
  /-- Waiting to be claimed. -/
  | enqueued
  /-- Claimed by one worker. -/
  | dequeued
  /-- The handler succeeded. -/
  | completed
  /-- The handler failed as often as it may. -/
  | failed
  /-- The handler reported that another attempt is of no use. -/
  | cancelled
  deriving DecidableEq

namespace Status

/-- The name of a status, as it is stored and shown. -/
def name : Status → String
  | .enqueued => "enqueued"
  | .dequeued => "dequeued"
  | .completed => "completed"
  | .failed => "failed"
  | .cancelled => "cancelled"

/-- The statuses, in the order of a job's life. -/
def all : List Status := [.enqueued, .dequeued, .completed, .failed, .cancelled]

theorem mem_all (s : Status) : s ∈ all := by cases s <;> decide

/-- The status of a name. -/
def ofName? (s : String) : Option Status := all.find? fun t => t.name == s

@[simp] theorem ofName?_name (s : Status) : ofName? s.name = some s := by
  cases s <;> decide

theorem name_of_ofName? {s : String} {t : Status} (h : ofName? s = some t) : t.name = s := by
  have := List.find?_some h
  simpa using this

/-- Distinct statuses have distinct names. -/
theorem name_inj {s t : Status} : s.name = t.name ↔ s = t := by
  cases s <;> cases t <;> decide

/-- Whether the status never changes again. -/
def isTerminal : Status → Bool
  | .enqueued | .dequeued => false
  | .completed | .failed | .cancelled => true

/-- The wording for a text that names no status. -/
def unknown (s : String) : String := s!"unknown job status: {s}"

/-- Statuses as documents. -/
def format : Format Status where
  name := "job_pool::job::model::Status"
  read v := do
    let c ← Format.chosen (all.map Status.name) v
    c.unit
    match ofName? c.name with
    | some s => return s
    | none => throw (.unknownVariant c.name (all.map Status.name))
  write s := .ok (.str s.name)

end Status

end JobQueue
