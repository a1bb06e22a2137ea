import JobQueue.Task.Basic

/-!
# JobQueue.Task.Cleanup

The task that deletes jobs some time after they finished. It runs as a periodic
job like any other; its result is the number of jobs that it deleted.
-/

namespace JobQueue.Cleanup

/-- The name of the task. -/
def taskName : String := "job-pool.cleanup"

/-- The template of its jobs. -/
def blueprint : Blueprint := ⟨"periodic", .null, .zero⟩

/-- Delete the jobs that finished longer ago than `retention`. -/
def handler (retention : Duration) : Handler Unit UInt64 := fun _ now store =>
  match store.deleteFinished (now.before retention) with
  | (.ok n, store) => { verdict := .returned (.ofNat n), store }
  | (.error e, store) => { verdict := .failed (.retry e.message), store }

/-- The task that cleans up every `periodicity`. -/
def task (periodicity retention : Duration) : Task :=
  { Task.new taskName .unit .u64 (handler retention) with
    workers := 1
    maxAttempts := 1
    lifetime := periodicity
    periodic := some ⟨periodicity, blueprint⟩ }

end JobQueue.Cleanup
