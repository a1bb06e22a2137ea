import JobQueue.Store.Row
import JobQueue.Store.Schema

/-!
# JobQueue.Store.Basic

The table of jobs, the only thing that producers, workers and the reaper share.

Every operation is one statement: it changes the rows that its condition holds
for, all of them or, if it fails, none. It answers with a result or an error, and
with the store after it.

- Producers: `insert`, `insertIfAbsent`.
- Workers: `claim`, `finish`. A claim whose row cannot be read has still happened.
- The reaper: `requeue`.
- Inspection and retention: `get`, `list`, `delete`, `deleteFinished`.
-/

namespace JobQueue

/-! ## Faults -/

/-- The operations on the table. -/
inductive Operation where
  | insert
  | insertIfAbsent
  | claim
  | finish
  | requeue
  | get
  | list
  | delete
  | deleteFinished
  deriving DecidableEq

/-- The name of an operation in messages. -/
def Operation.name : Operation → String
  | .insert => "insert_job"
  | .insertIfAbsent => "insert_job_if_absent"
  | .claim => "claim_job"
  | .finish => "finish_attempt"
  | .requeue => "requeue_stale_jobs"
  | .get => "get_job"
  | .list => "list_jobs"
  | .delete => "delete_job"
  | .deleteFinished => "delete_finished_before"

/-- Why a statement fails. -/
inductive StatementFault where
  /-- There is no table of jobs. -/
  | noTable
  /-- A job with the identity is there already. -/
  | duplicateId
  /-- The events of a row are no document. -/
  | malformedLog
  deriving DecidableEq

/-- The wording of a statement fault. -/
def StatementFault.message : StatementFault → String
  | .noTable => "no such table: jobs"
  | .duplicateId => "UNIQUE constraint failed: jobs.id"
  | .malformedLog => "malformed JSON"

namespace DatabaseError

/-- A statement of an operation failed. -/
def statement (op : Operation) (f : StatementFault) : DatabaseError :=
  query s!"{op.name}: SQLite failure: `{f.message}`"

/-- A row that a statement gave cannot be read. -/
def row (f : RowFault) : DatabaseError :=
  match f with
  | .missing _ => query f.message
  | _ => serialization f.message

end DatabaseError

/-! ## The store -/

/-- A database: its schema, and the rows of jobs in the order of their insertion. -/
structure Store where
  schema : Schema
  rows : List Row

namespace Store

/-- A new database. -/
def empty : Store := ⟨.current, []⟩

/-- What an operation answers, and the store after it. -/
abbrev Answer (α : Type) := Except DatabaseError α × Store

/-- Whether a row has the identity of a job. -/
def hasId (s : Store) (id : String) : Bool := s.rows.any fun r => r.id.is id

/-- Fail without a change. -/
def fail {α : Type} (s : Store) (op : Operation) (f : StatementFault) : Answer α :=
  (.error (.statement op f), s)

/-- Read rows, up to the first that cannot be read. -/
def readRows (rows : List Row) : Except DatabaseError (List Job) :=
  rows.mapM fun r => r.toJob.mapError .row

/-! ## Producers -/

/-- Add the row of a job. -/
def addRow (s : Store) (op : Operation) (j : Job) : Answer Unit :=
  if s.hasId j.id.text then s.fail op .duplicateId
  else (.ok (), { s with rows := s.rows ++ [Row.ofJob j] })

/-- Add a job. -/
def insert (s : Store) (j : Job) : Answer Unit :=
  if s.schema.hasJobs then s.addRow .insert j else s.fail .insert .noTable

/-- Add a job, unless one of its name and label is not finished or finished after
an instant. The answer tells whether it was added. -/
def insertIfAbsent (s : Store) (j : Job) (finishedAfter : Instant) : Answer Bool :=
  if s.schema.hasJobs then
    if s.rows.any fun r => r.isPending j.name j.label (Stamp.ofInstant finishedAfter) then
      (.ok false, s)
    else
      match s.addRow .insertIfAbsent j with
      | (.ok (), s) => (.ok true, s)
      | (.error e, s) => (.error e, s)
  else s.fail .insertIfAbsent .noTable

/-! ## Workers -/

/-- The row that is claimed before all others; of equal rows the first. -/
def earliest : List Row → Option Row
  | [] => none
  | r :: rest =>
      match earliest rest with
      | none => some r
      | some best => if best.precedes r then some best else some r

/-- The row that a claim takes. -/
def claimable (s : Store) (name : String) (now : Instant) : Option Row :=
  earliest (s.rows.filter fun r => r.isClaimable name (Stamp.ofInstant now))

/-- Put a row in the place of the row of its identity. -/
def replace (s : Store) (new : Row) : Store :=
  { s with rows := s.rows.map fun r => if r.id == new.id then new else r }

/-- Take the oldest job of a name that is available at an instant. -/
def claim (s : Store) (name : String) (now : Instant) : Answer (Option Job) :=
  if s.schema.hasJobs then
    match s.claimable name now with
    | none => (.ok none, s)
    | some r =>
        if r.id.isNull then (.ok none, s)
        else
          match r.claimed now with
          | none => s.fail .claim .malformedLog
          | some r => ((r.toJob.mapError .row).map some, s.replace r)
  else s.fail .claim .noTable

/-- Record the outcome of an attempt. The answer tells whether the job was still
in that attempt; if not, nothing changes. -/
def finish (s : Store) (id : JobId) (attempt : UInt32) (o : Outcome) (now : Instant) :
    Answer Bool :=
  if s.schema.hasJobs then
    match s.rows.find? fun r => r.id.is id.text && r.isInAttempt attempt with
    | none => (.ok false, s)
    | some r =>
        match r.finishedWith o now with
        | none => s.fail .finish .malformedLog
        | some r => (.ok true, s.replace r)
  else s.fail .finish .noTable

/-! ## The reaper -/

/-- The identity in a row whose claim was taken back. -/
def requeuedId (r : Row) : Except DatabaseError JobId :=
  match r.id.read? with
  | some text => (Row.readId text).mapError .row
  | none => .error (.query s!"{Operation.requeue.name}: {RowFault.nullValue}")

/-- Take back the claims of a name that are older than an instant. The answer is
the identities of their jobs. -/
def requeue (s : Store) (name : String) (startedBefore now : Instant) : Answer (List JobId) :=
  if s.schema.hasJobs then
    let stale (r : Row) : Bool := r.isStale name (Stamp.ofInstant startedBefore)
    match s.rows.mapM fun r => if stale r then r.requeued now else some r with
    | none => s.fail .requeue .malformedLog
    | some rows =>
        ((s.rows.filter stale).mapM requeuedId, { s with rows })
  else s.fail .requeue .noTable

/-! ## Inspection and retention -/

/-- The job of an identity. -/
def get (s : Store) (id : JobId) : Answer (Option Job) :=
  if s.schema.hasJobs then
    match s.rows.find? fun r => r.id.is id.text with
    | none => (.ok none, s)
    | some r => ((r.toJob.mapError .row).map some, s)
  else s.fail .get .noTable

/-- The jobs of a name, and of a status if one is given, oldest first. Jobs of one
instant go by their labels, or by their availability where a status is given. -/
def list (s : Store) (name : String) (status : Option Status) : Answer (List Job) :=
  if s.schema.hasJobs then
    let wanted (r : Row) : Bool :=
      r.name.is name && (match status with | some t => r.hasStatus t | none => true)
    let tie (r : Row) : Column := if status.isSome then r.available else r.label
    (readRows ((s.rows.filter wanted).mergeSort (Row.isListedBefore tie)), s)
  else s.fail .list .noTable

/-- Remove a job. The answer tells whether it was there. -/
def delete (s : Store) (id : JobId) : Answer Bool :=
  if s.schema.hasJobs then
    (.ok (s.hasId id.text), { s with rows := s.rows.filter fun r => !r.id.is id.text })
  else s.fail .delete .noTable

/-- Remove the jobs that finished before an instant. The answer is how many. -/
def deleteFinished (s : Store) (cutoff : Instant) : Answer Nat :=
  if s.schema.hasJobs then
    let expired (r : Row) : Bool := r.finished.before (Stamp.ofInstant cutoff)
    (.ok (s.rows.countP expired), { s with rows := s.rows.filter fun r => !expired r })
  else s.fail .deleteFinished .noTable

/-- Bring the schema up to date. The database fills in what is not given of the ledger. -/
def migrate (s : Store) (fill : Int → String) : Answer Unit :=
  let (answer, schema) := s.schema.migrate fill
  (answer, { s with schema })

end Store

end JobQueue
