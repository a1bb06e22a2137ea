import JobQueue.Blueprint
import JobQueue.Session

/-!
# JobQueue.Queue

The producers' side: jobs are built from blueprints and inserted.

- `Queue.enqueue` inserts a job for a payload.
- `Queue.enqueueBlueprint` inserts a job for a blueprint; with an isolation, only
  if no job of its name and label is pending or finished within that time.
-/

namespace JobQueue.Queue

/-- The job of a blueprint, created at an instant. -/
def build (id : JobId) (now : Instant) (name : String) (b : Blueprint) :
    Except EnqueueError Job :=
  if name.isEmpty then .error .emptyName
  else
    match now.after? b.delay with
    | none => .error (.invalidDelay b.delay)
    | some available => .ok (Job.new id name b.label b.data now available)

/-- Build a job with a fresh identity at the present. -/
def draft (name : String) (b : Blueprint) (s : Session) : Except EnqueueError Job × Session :=
  let (now, s) := s.now
  match build (s.supply.draw).1 now name b with
  | .error e => (.error e, s)
  | .ok job => (.ok job, (s.freshId).2)

/-- Insert a job. -/
def insert (job : Job) (s : Session) : Except EnqueueError Unit × Session :=
  let (answer, link) := s.link.insert job
  (answer.mapError .database, { s with link })

/-- Insert a job, unless another one keeps it away. -/
def insertIfAbsent (job : Job) (finishedAfter : Instant) (s : Session) :
    Except EnqueueError Bool × Session :=
  let (answer, link) := s.link.insertIfAbsent job finishedAfter
  (answer.mapError .database, { s with link })

/-- Insert a job for a blueprint. No job means that another one kept it away. -/
def enqueueBlueprint (name : String) (b : Blueprint) (isolation : Option Duration)
    (s : Session) : Except EnqueueError (Option Job) × Session :=
  match draft name b s with
  | (.error e, s) => (.error e, s)
  | (.ok job, s) =>
      match isolation with
      | none =>
          let (answer, s) := insert job s
          (answer.map fun _ => some job, s)
      | some window =>
          let (answer, s) := insertIfAbsent job (job.created.before window) s
          (answer.map fun added => if added then some job else none, s)

/-- Insert a job for a payload, to be claimed after a delay. -/
def enqueue {α : Type} (f : Format α) (name : String) (payload : α) (delay : Duration)
    (s : Session) : Except EnqueueError Job × Session :=
  match Blueprint.ofPayload f "" payload delay with
  | .error e => (.error (.codec e), s)
  | .ok b =>
      match draft name b s with
      | (.error e, s) => (.error e, s)
      | (.ok job, s) =>
          let (answer, s) := insert job s
          (answer.map fun _ => job, s)

end JobQueue.Queue
