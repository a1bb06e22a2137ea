import JobQueue.Backoff
import JobQueue.Job.Basic

/-!
# JobQueue.Job.Outcome

How an attempt ends, and what that means for the job: the four transitions out of
`dequeued`.
-/

namespace JobQueue

/-- Why a handler did not succeed. -/
inductive HandlerError where
  /-- Another attempt may succeed. -/
  | retry (reason : String)
  /-- No further attempt is of use. -/
  | cancel (reason : String)
  deriving DecidableEq

namespace HandlerError

/-- Whether another attempt may succeed. -/
def isRetryable : HandlerError → Bool
  | .retry _ => true
  | .cancel _ => false

/-- What the handler reported. -/
def reason : HandlerError → String
  | .retry r => r
  | .cancel r => r

/-- A chain of errors, the root first and what was added about it after it,
allows another attempt. -/
def ofChain (root : String) (contexts : List String) : HandlerError :=
  .retry (": ".intercalate ((root :: contexts).reverse))

/-- A payload or a result that does not convert cancels the job. -/
def ofCodec (e : CodecError) : HandlerError := .cancel e.message

end HandlerError

/-- How an attempt ended. -/
inductive Outcome where
  /-- The job is completed. -/
  | completed (result : Json)
  /-- The job may be claimed again from `available` on. -/
  | retry (error : String) (available : Instant)
  /-- The job failed for good. -/
  | failed (error : String)
  /-- The job is cancelled. -/
  | cancelled (reason : String)

namespace Outcome

/-- The outcome of an attempt from what its handler returned. `attempt` counts
from one. An error that allows another attempt is final when there is none left;
an instant past the calendar becomes the latest one. -/
def decide (result : Except HandlerError Json) (attempt maxAttempts : UInt32) (backoff : Backoff)
    (now : Instant) : Except NegativeDelay Outcome :=
  match result with
  | .ok v => .ok (.completed v)
  | .error (.cancel reason) => .ok (.cancelled reason)
  | .error (.retry error) =>
      if maxAttempts ≤ attempt then .ok (.failed error)
      else do
        let d ← backoff.delay attempt
        return .retry error ((now.after? d).getD .latest)

/-- The status that the job enters. -/
def status : Outcome → Status
  | .completed _ => .completed
  | .retry _ _ => .enqueued
  | .failed _ => .failed
  | .cancelled _ => .cancelled

/-- Whether the job is done for good. -/
def isTerminal (o : Outcome) : Bool := o.status.isTerminal

/-- Why the attempt did not succeed; empty if it did. -/
def reason : Outcome → String
  | .completed _ => ""
  | .retry error _ => error
  | .failed error => error
  | .cancelled reason => reason

/-- The audit entry. -/
def event (o : Outcome) (now : Instant) : Event := ⟨now, o.status, o.reason⟩

end Outcome

end JobQueue
