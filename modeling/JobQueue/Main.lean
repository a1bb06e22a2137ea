import JobQueue.Program
import Std.Time.DateTime.Timestamp

/-!
# JobQueue.Main

The command line: the settings come from the environment, the table is kept in
memory, and the pool runs until the input ends.
-/

namespace JobQueue

/-- The present, from the clock of the system. -/
def systemInstant : IO Instant := do
  let now ← Std.Time.Timestamp.now
  return (Instant.ofNanos? now.toNanosecondsSinceUnixEpoch.toInt).getD .earliest

/-- The settings from the environment. -/
def environment : IO (String → Option String) := do
  let keys := [Config.pathKey, Config.reaperKey, Config.graceKey, Config.retentionKey,
    Config.cleanupKey]
  let pairs ← keys.mapM fun k => do return (k, ← IO.getEnv k)
  return fun k => (pairs.lookup k).join

/-- Show lines to the user. -/
def showLines (lines : List String) : IO Unit := do
  for line in lines do
    IO.eprintln line

/-- Let the clock of a timeline show an instant. -/
def Timeline.showing (tl : Timeline) (t : Instant) : Timeline :=
  let supply := { Supply.still t with drawn := tl.session.supply.drawn }
  { tl with session := { tl.session with supply } }

/-- Tick in step with the clock until told to end. -/
partial def keepRunning (ended : BaseIO Bool) (tl : Timeline) : IO Timeline := do
  if ← ended then return tl
  let tl := (tl.showing (← systemInstant)).tick
  IO.sleep 1
  keepRunning ended (tl.pass 1)

end JobQueue

open JobQueue in
/-- Run a pool with the cleanup task. -/
def main : IO UInt32 := do
  match Config.fromLookup (← environment) with
  | .error e =>
      showLines [(Program.Failure.config e).line]
      return 1
  | .ok config =>
      showLines (Program.banner config)
      match Program.pool config with
      | .error e =>
          showLines [(Program.Failure.config e).line]
          return 1
      | .ok plan =>
          let supply := Supply.still (← systemInstant)
          let input ← IO.getStdin
          let reading ← IO.asTask input.getLine
          let tl ← keepRunning (IO.hasFinished reading)
            (.start plan ⟨.reliable .empty, supply⟩)
          let _ := tl.close
          return 0
