import JobQueue.Job.Log
import JobQueue.Job.Outcome
import JobQueue.Store.Column
import JobQueue.Time.Stamp

/-!
# JobQueue.Store.Row

A job as a row of columns.

- `Row.ofJob` writes a job, `Row.toJob` reads it and says what cannot be read.
- `claimed`, `finished` and `requeued` are the changes that a row goes through.
  Each adds an event, and has no result where the events are no document.

Stamps order like the instants they stand for, so rows are compared as texts.
-/

namespace JobQueue

/-! ## Rows -/

/-- A row of the table of jobs. -/
structure Row where
  id : Column
  name : Column
  label : Column
  data : Column
  status : Column
  created : Column
  available : Column
  started : Column
  ended : Column
  finished : Column
  attempts : Int
  events : Column
  result : Column
  error : Column
  reason : Column
  deriving DecidableEq

/-- Why a row cannot be read. -/
inductive RowFault where
  | document (column text : String) (fault : Json.Fault)
  | id (text : String) (fault : JobId.Fault)
  | status (text : String)
  | stamp (text : String) (fault : Rfc3339.Fault)
  /-- The column of an index holds nothing, and should. -/
  | missing (index : Nat)
  /-- The column of an index holds bytes. -/
  | notText (index : Nat) (bytes : List UInt8)
  | attempts (n : Int)
  deriving DecidableEq

/-- The wording of an empty column. -/
def RowFault.nullValue : String := "Null value"

/-- The wording of a row fault. -/
def RowFault.message : RowFault → String
  | .document column text fault => s!"bad {column} column: {fault.message text.toList}"
  | .id text fault => s!"bad job id {Text.quoted text}: {fault.message}"
  | .status text => Status.unknown text
  | .stamp text fault => s!"bad timestamp {Text.quoted text}: {fault.message}"
  | .missing index => s!"job column {index}: {nullValue}"
  | .notText index bytes =>
      let items := ", ".intercalate (bytes.map fun b => toString b.toNat)
      s!"job column {index}: expected text or NULL, got Blob([{items}])"
  | .attempts n => s!"bad attempts column: {n}"

namespace Row

/-! ## Writing -/

/-- The column of an instant: its stamp. -/
def ofInstant (t : Instant) : Column := .text (Stamp.ofInstant t)

/-- The column of a status: its name. -/
def ofStatus (s : Status) : Column := .text s.name

/-- The column of an instant that may be missing. -/
def ofInstant? (t : Option Instant) : Column := .ofOption (t.map Stamp.ofInstant)

/-- The row of a job. -/
def ofJob (j : Job) : Row where
  id := .text j.id.text
  name := .text j.name
  label := .text j.label
  data := .text j.data.render
  status := ofStatus j.status
  created := ofInstant j.created
  available := ofInstant j.available
  started := ofInstant? j.started
  ended := ofInstant? j.ended
  finished := ofInstant? j.finished
  attempts := j.attempts.toNat
  events := .text (Log.text j.events)
  result := .ofOption (j.result.map Json.render)
  error := .ofOption j.error
  reason := .ofOption j.reason

/-! ## Reading -/

/-- The document of a column. -/
def readDocument (column text : String) : Except RowFault Json :=
  (Json.parse text).mapError (.document column text)

/-- The instant of a column. -/
def readStamp (text : String) : Except RowFault Instant :=
  (Stamp.parse text).mapError (.stamp text)

/-- The text of a column that may be empty. -/
def readText (index : Nat) (c : Column) : Except RowFault (Option String) :=
  match c with
  | .null => .ok none
  | .text s => .ok (some (Column.readable s))
  | .blob bytes => .error (.notText index bytes)

/-- The text of a column that is not empty. -/
def readRequired (index : Nat) (c : Column) : Except RowFault String := do
  match ← readText index c with
  | some s => return s
  | none => throw (.missing index)

/-- What stands in a column that may be empty. -/
def readOptional {α : Type} (index : Nat) (read : String → Except RowFault α) (c : Column) :
    Except RowFault (Option α) := do
  match ← readText index c with
  | none => return none
  | some s => return some (← read s)

/-- The events of a column. -/
def readEvents (text : String) : Except RowFault (List Event) :=
  (Log.parse text).mapError (.document "events" text)

/-- The identity of a column. -/
def readId (text : String) : Except RowFault JobId := (JobId.parse text).mapError (.id text)

/-- The status of a column. -/
def readStatus (text : String) : Except RowFault Status :=
  match Status.ofName? text with
  | some s => .ok s
  | none => .error (.status text)

/-- The job of a row. -/
def toJob (r : Row) : Except RowFault Job := do
  let idText ← readRequired 0 r.id
  let statusText ← readRequired 4 r.status
  let events ← readEvents (← readRequired 11 r.events)
  let id ← readId idText
  let name ← readRequired 1 r.name
  let label ← readRequired 2 r.label
  let data ← readDocument "data" (← readRequired 3 r.data)
  let status ← readStatus statusText
  let created ← readStamp (← readRequired 5 r.created)
  let available ← readStamp (← readRequired 6 r.available)
  let started ← readOptional 7 readStamp r.started
  let ended ← readOptional 8 readStamp r.ended
  let finished ← readOptional 9 readStamp r.finished
  let attempts ←
    if 0 ≤ r.attempts ∧ r.attempts < 2 ^ 32 then
      (.ok (.ofNat r.attempts.toNat) : Except RowFault UInt32)
    else .error (.attempts r.attempts)
  let result ← readOptional 12 (readDocument "result") r.result
  let error ← readText 13 r.error
  let reason ← readText 14 r.reason
  return ⟨id, name, label, data, status, created, available, started, ended, finished,
    attempts, events, result, error, reason⟩

/-! ## Changes -/

/-- Whether the row has a status. -/
def hasStatus (r : Row) (s : Status) : Bool := r.status.is s.name

/-- Whether a claim at the instant of a stamp may take the row. -/
def isClaimable (r : Row) (name now : String) : Bool :=
  r.name.is name && r.hasStatus .enqueued && r.available.upTo now

/-- Whether a row is claimed before another one. -/
def precedes (r s : Row) : Bool :=
  r.available.lt s.available || (r.available == s.available && r.created.lt s.created)

/-- Whether a row may be listed before another one: older rows first, and rows of
one instant by another column. -/
def isListedBefore (tie : Row → Column) (r s : Row) : Bool :=
  !(s.created.lt r.created || (s.created == r.created && (tie s).lt (tie r)))

/-- The events of the row with one more at their end. Bytes that are no document of
their own count as a text. -/
def appended (r : Row) (e : Event) : Option Column :=
  match r.events with
  | .blob bytes =>
      if Json.Binary.isDocument bytes then (Log.appendBinary bytes e).map Column.ofBytes
      else appendedText
  | _ => appendedText
where
  /-- The events as a text with one more at their end. -/
  appendedText : Option Column := do return .text (← Log.append (← r.events.document?) e)

/-- The row after a claim. -/
def claimed (r : Row) (now : Instant) : Option Row := do
  let events ← r.appended ⟨now, .dequeued, ""⟩
  return { r with
    status := ofStatus .dequeued
    started := ofInstant now
    ended := .null
    attempts := r.attempts + 1
    events }

/-- Whether the row is in the given attempt. -/
def isInAttempt (r : Row) (attempt : UInt32) : Bool :=
  r.hasStatus .dequeued && r.attempts == attempt.toNat

/-- The columns that an outcome sets. -/
def withOutcome (r : Row) (o : Outcome) (now : Instant) : Row :=
  let status := ofStatus o.status
  let ended := ofInstant now
  match o with
  | .completed result =>
      { r with status, ended, finished := ended, result := .text result.render }
  | .retry error available =>
      { r with status, ended, error := .text error, available := ofInstant available }
  | .failed error =>
      { r with status, ended, finished := ended, error := .text error }
  | .cancelled reason =>
      { r with status, ended, finished := ended, reason := .text reason }

/-- The row after the end of an attempt. -/
def finishedWith (r : Row) (o : Outcome) (now : Instant) : Option Row := do
  let events ← r.appended (o.event now)
  return { r.withOutcome o now with events }

/-- Whether the row is claimed since before the instant of a stamp. -/
def isStale (r : Row) (name startedBefore : String) : Bool :=
  r.name.is name && r.hasStatus .dequeued && r.started.before startedBefore

/-- The reason in the event of a claim that is taken back. -/
def lifetimeExceeded : String := "lifetime exceeded"

/-- The row after its claim was taken back. -/
def requeued (r : Row) (now : Instant) : Option Row := do
  let events ← r.appended ⟨now, .enqueued, lifetimeExceeded⟩
  return { r with
    status := ofStatus .enqueued
    available := ofInstant now
    events }

/-- Whether the row keeps another job of its name and label away. -/
def isPending (r : Row) (name label finishedAfter : String) : Bool :=
  r.name.is name && r.label.is label && (r.finished.isNull || r.finished.after finishedAfter)

end Row

end JobQueue
