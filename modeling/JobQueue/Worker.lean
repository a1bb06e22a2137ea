import JobQueue.Session
import JobQueue.Task.Basic

/-!
# JobQueue.Worker

A worker claims jobs of one task and runs them to an outcome.

- `Worker.take` claims a job and runs its handler.
- `Worker.record` writes the outcome: again and again while the store is out of
  reach, until the worker is cancelled or the claim has outlived the task. Then
  the job is left to the reaper.
- `Worker.step` is both; `Worker.steps` is a worker's loop.
-/

namespace JobQueue.Worker

/-! ## Attempts -/

/-- An attempt whose handler has come to its end. -/
structure Attempt where
  id : JobId
  /-- The attempt, counted from one. -/
  number : UInt32
  result : Except HandlerError Json
  /-- How many milliseconds the handler slept. -/
  slept : Nat

/-- What a claim comes to. -/
inductive Taken where
  /-- There was no job. -/
  | nothing
  /-- The claim failed. -/
  | failed (e : DatabaseError)
  /-- The claim broke off. -/
  | broke
  | attempt (a : Attempt)

/-- Claim a job and run its handler. -/
def take (t : Task) (s : Session) : Taken × Session :=
  let (now, s) := s.now
  match s.link.claim t.name now with
  | (none, link) => (.broke, { s with link })
  | (some (.error e), link) => (.failed e, { s with link })
  | (some (.ok none), link) => (.nothing, { s with link })
  | (some (.ok (some job)), link) =>
      let (present, s) := ({ s with link } : Session).now
      let run := t.execute job present s.store
      (.attempt ⟨job.id, job.attempts, run.result, run.slept⟩, s.withStore run.store)

/-! ## Outcomes -/

/-- The outcome of an attempt that ends at an instant. -/
def outcome (t : Task) (a : Attempt) (now : Instant) : Except NegativeDelay Outcome :=
  Outcome.decide a.result a.number t.maxAttempts t.backoff now

/-- The milliseconds of thirty years, which are waited where the wait has no end. -/
def longestWait : Nat := 30 * 365 * 86400 * 1000

/-- The wait of an idle worker in whole milliseconds, without its jitter. -/
def pollMillis (t : Task) : Nat :=
  if t.pollInterval.isEndless then longestWait else (t.pollInterval.nanos + 999999) / 1000000

/-- Whether a claim has outlived its task after a number of milliseconds. -/
def isExpired (t : Task) (waited : Nat) : Bool :=
  !t.lifetime.isEndless && t.lifetime.nanos ≤ waited * 1000000

/-- Write an outcome once; the answer tells whether the store took it up. -/
def tryRecord (a : Attempt) (o : Outcome) (ended : Instant) (s : Session) : Bool × Session :=
  let (answer, link) := s.link.finish a.id a.number o ended
  (answer.isOk, { s with link })

/-- Write an outcome, and again after each failure. `refusals` is how often the
link is going to refuse; a failure after those lasts. -/
def record (t : Task) (a : Attempt) (o : Outcome) (ended : Instant) (cancelled : Bool) :
    (refusals waited : Nat) → Session → Session
  | refusals, waited, s =>
      match tryRecord a o ended s with
      | (true, s) => s
      | (false, s) =>
          if cancelled || isExpired t waited then s
          else
            match refusals with
            | 0 => s
            | n + 1 => record t a o ended cancelled n (waited + pollMillis t) s

/-! ## Steps -/

/-- What a step of a worker comes to. -/
inductive Step where
  | idle
  | claimed
  | failed (e : DatabaseError)
  /-- The worker breaks off, before or after it claimed a job. -/
  | broke (claimed : Bool)

/-- Claim and process at most one job. -/
def step (t : Task) (cancelled : Bool) (s : Session) : Step × Session :=
  match take t s with
  | (.nothing, s) => (.idle, s)
  | (.failed e, s) => (.failed e, s)
  | (.broke, s) => (.broke false, s)
  | (.attempt a, s) =>
      let (ended, s) := s.now
      match outcome t a ended with
      | .error _ => (.broke true, s)
      | .ok o => (.claimed, record t a o ended cancelled s.link.refusals.finish a.slept s)

/-- As many steps of one worker, unless it breaks off. -/
def steps (t : Task) : Nat → Session → List Step × Session
  | 0, s => ([], s)
  | n + 1, s =>
      match step t false s with
      | (.broke claimed, s) => ([.broke claimed], s)
      | (report, s) =>
          let (reports, s) := steps t n s
          (report :: reports, s)

/-- As many workers, each cancelled in its first step. -/
def cancelledSteps (t : Task) : Nat → Session → List Step × Session
  | 0, s => ([], s)
  | n + 1, s =>
      let (report, s) := step t true s
      let (reports, s) := cancelledSteps t n s
      (report :: reports, s)

end JobQueue.Worker
