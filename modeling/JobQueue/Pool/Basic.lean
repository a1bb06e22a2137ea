import JobQueue.Config
import JobQueue.Task.Basic

/-!
# JobQueue.Pool.Basic

A pool is a set of tasks that share a store. Tasks are added one by one, each
name once, and are kept in the order of their names; a task that is refused
leaves no trace.
-/

namespace JobQueue

/-- A pool that has not started. -/
structure Pool where
  config : Config
  /-- The tasks, by name. -/
  tasks : List Task

/-- What a pool becomes when it starts. -/
structure PoolPlan where
  tasks : List Task
  /-- The time between two sweeps. -/
  interval : Duration
  /-- How many loops run: the workers and the reaper. -/
  loops : Nat
  /-- How long the end of the pool waits for handlers. -/
  grace : Duration

namespace Pool

/-- A pool without tasks. -/
def new (config : Config) : Pool := ⟨config, []⟩

/-- Put a task in the place that the order of names gives it. -/
def place (t : Task) : List Task → List Task
  | [] => [t]
  | u :: rest => if t.name < u.name then t :: u :: rest else u :: place t rest

/-- Add a task. -/
def add (p : Pool) (t : Task) : Except ConfigError Pool := do
  t.validate
  if p.tasks.any fun u => u.name == t.name then throw (.duplicateTask t.name)
  return { p with tasks := place t p.tasks }

/-- Add tasks that may be refused; the answers are in their order. -/
def addEach (p : Pool) : List Task → List (Except ConfigError Unit) × Pool
  | [] => ([], p)
  | t :: ts =>
      match p.add t with
      | .ok p =>
          let (answers, p) := addEach p ts
          (.ok () :: answers, p)
      | .error e =>
          let (answers, p) := addEach p ts
          (.error e :: answers, p)

/-- Add tasks, up to the first that is refused. -/
def addAll (p : Pool) (ts : List Task) : Except ConfigError Pool := ts.foldlM add p

/-- The longest lifetime of tasks. -/
def longestLifetime (ts : List Task) : Duration :=
  ts.foldl (fun d t => .longer d t.lifetime) .zero

/-- How many workers tasks have. -/
def lanes : List Task → Nat
  | [] => 0
  | t :: ts => t.workers + lanes ts

/-- Start the pool. -/
def start (p : Pool) : Except ConfigError PoolPlan :=
  if p.tasks.isEmpty then .error .noTasks
  else if p.config.reaperInterval.isZero then .error (.zero "reaper_interval")
  else
    .ok {
      tasks := p.tasks
      interval := p.config.reaperInterval
      loops := lanes p.tasks + 1
      grace := p.config.shutdownGrace.getD (longestLifetime p.tasks) }

end Pool

end JobQueue
