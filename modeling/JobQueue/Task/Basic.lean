import JobQueue.Blueprint
import JobQueue.Store.Basic

/-!
# JobQueue.Task.Basic

A named kind of job: how its payload is handled, and the settings of its workers.

- `Task.new` binds a handler of typed values to documents: a payload or a result
  that does not convert cancels the job.
- `Task.execute` runs a job; a handler that breaks off allows another attempt.
- `Task.validate` says which setting is not usable.
-/

namespace JobQueue

/-! ## Handlers -/

/-- What a handler sees of an attempt. -/
structure Context (α : Type) where
  /-- The payload. -/
  model : α
  id : JobId
  name : String
  label : String
  /-- The attempt, counted from one. -/
  attempt : UInt32
  /-- When the attempt was claimed. -/
  started : Instant

/-- How a handler comes to an end. -/
inductive Verdict (α : Type) where
  | returned (a : α)
  | failed (e : HandlerError)
  /-- It breaks off, perhaps with a message. -/
  | broke (message : Option String)

/-- One run of a handler: its end, the store after it, and how many milliseconds
it slept. -/
structure Run (α : Type) where
  verdict : Verdict α
  store : Store
  slept : Nat := 0

/-- A handler sees an attempt, the present and the store. -/
abbrev Handler (α β : Type) := Context α → Instant → Store → Run β

/-- A handler that neither uses the store nor sleeps. -/
def Handler.pure {α β : Type} (f : Context α → Verdict β) : Handler α β :=
  fun ctx _ store => { verdict := f ctx, store }

/-- The reason for another attempt after a handler broke off. -/
def brokenReason : Option String → String
  | none => "handler panicked"
  | some m => s!"handler panicked: {m}"

namespace Verdict

/-- The end of a handler as a document, or why there is none. -/
def toResult {α : Type} (f : Format α) : Verdict α → Except HandlerError Json
  | returned a => (f.encode a).mapError HandlerError.ofCodec
  | failed e => .error e
  | broke m => .error (.retry (brokenReason m))

end Verdict

/-! ## Tasks -/

/-- One run of a job: its result, the store after it, and how long it slept. -/
structure Execution where
  result : Except HandlerError Json
  store : Store
  slept : Nat := 0

/-- A kind of job. -/
structure Task where
  name : String
  /-- Run a job; the instant is the present. -/
  execute : Job → Instant → Store → Execution
  /-- Whether a document is a payload. -/
  checkPayload : Json → Except CodecError Unit
  /-- How many workers there are. -/
  workers : Nat := 2
  /-- How many attempts a job has. -/
  maxAttempts : UInt32 := 3
  /-- How long a claim lasts before it is taken back. -/
  lifetime : Duration := .ofSecs 300
  /-- How long a job waits between attempts. -/
  backoff : Backoff := .standard
  /-- How long an idle worker waits. -/
  pollInterval : Duration := .ofSecs 1
  /-- How much longer an idle worker may wait. -/
  jitter : Duration := .ofMillis 100
  /-- The job that is inserted again and again. -/
  periodic : Option Periodic := none

namespace Task

/-- What a handler sees of a job. -/
def context {α : Type} (model : α) (j : Job) (now : Instant) : Context α where
  model := model
  id := j.id
  name := j.name
  label := j.label
  attempt := j.attempts
  started := j.started.getD now

/-- Run a job with a handler of typed values. -/
def executeWith {α β : Type} (payload : Format α) (result : Format β) (handler : Handler α β)
    (j : Job) (now : Instant) (store : Store) : Execution :=
  match payload.decode j.data with
  | .error e => { result := .error (.ofCodec e), store }
  | .ok model =>
      let run := handler (context model j now) now store
      { result := run.verdict.toResult result, store := run.store, slept := run.slept }

/-- The task of a name whose jobs carry payloads of a type, with the usual settings. -/
def new {α β : Type} (name : String) (payload : Format α) (result : Format β)
    (handler : Handler α β) : Task where
  name := name
  execute := executeWith payload result handler
  checkPayload v := (payload.decode v).map fun _ => ()

/-! ## Settings -/

/-- An unusable setting of a task. -/
def invalid (t : Task) (field message : String) : ConfigError :=
  .invalidValue s!"{t.name}.{field}" message

/-- A setting that must not be zero. -/
def checkNonZero (t : Task) (field : String) (d : Duration) : Except ConfigError Unit :=
  if d.isZero then .error (t.invalid field "must be greater than zero") else .ok ()

/-- A count that must not be zero. -/
def checkPositive (t : Task) (field : String) (n : Nat) : Except ConfigError Unit :=
  if n = 0 then .error (t.invalid field "must be at least 1") else .ok ()

/-- The delays must be positive and must not shrink. -/
def checkBackoff (t : Task) : Except ConfigError Unit :=
  if t.backoff.min.isZero then
    .error (t.invalid "backoff" "minimum delay must be greater than zero")
  else if t.backoff.max < t.backoff.min then
    .error (t.invalid "backoff" "maximum delay is below the minimum")
  else if !t.backoff.factor.isFinite || t.backoff.factor < 1 then
    .error (t.invalid "backoff" "factor must be a finite number >= 1")
  else .ok ()

/-- A periodic job must have time between its runs, and a payload of the task. -/
def checkPeriodic (t : Task) : Except ConfigError Unit :=
  match t.periodic with
  | none => .ok ()
  | some p => do
      t.checkNonZero "periodicity" p.every
      (t.checkPayload p.blueprint.data).mapError fun e => .invalidBlueprint t.name e.message

/-- Check the settings; the first that is not usable counts. -/
def validate (t : Task) : Except ConfigError Unit := do
  if t.name.isEmpty then throw .emptyTaskName
  t.checkPositive "workers" t.workers
  t.checkPositive "max_attempts" t.maxAttempts.toNat
  t.checkNonZero "lifetime" t.lifetime
  t.checkNonZero "poll_interval" t.pollInterval
  t.checkBackoff
  t.checkPeriodic

/-! ## Idle workers -/

/-- The longest extra wait in milliseconds. -/
def jitterMillis (t : Task) : UInt64 := .ofNat (min t.jitter.millis (2 ^ 64 - 1))

/-- How long an idle worker waits when it draws an extra wait. -/
def idleDelay (t : Task) (extra : UInt64) : Duration := t.pollInterval.add (.ofMillis extra)

end Task

end JobQueue
