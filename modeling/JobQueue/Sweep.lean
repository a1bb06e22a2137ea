import JobQueue.Queue
import JobQueue.Task.Basic

/-!
# JobQueue.Sweep

The reaper's pass over the tasks of a pool. For each task, claims older than its
lifetime are taken back, and then its periodic job is inserted if it is due. What
fails is left to the next sweep.
-/

namespace JobQueue.Sweep

/-- Take back the claims of a task that have outlived it. -/
def recover (t : Task) (now : Instant) (s : Session) : Session :=
  let (_, link) := s.link.requeue t.name (now.before t.lifetime) now
  { s with link }

/-- Insert the periodic job of a task, if it is due. -/
def schedule (t : Task) (s : Session) : Session :=
  match t.periodic with
  | none => s
  | some p => (Queue.enqueueBlueprint t.name p.blueprint (some p.every) s).2

/-- One pass over tasks. -/
def sweep (tasks : List Task) (now : Instant) (s : Session) : Session :=
  tasks.foldl (fun s t => schedule t (recover t now s)) s

end JobQueue.Sweep
