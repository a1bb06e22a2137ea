import JobQueue.Pool.Basic
import JobQueue.Sweep
import JobQueue.Worker

/-!
# JobQueue.Pool.Timeline

A pool at work, millisecond by millisecond. Each worker is a lane that polls,
handles a job or waits to record an outcome; the reaper sweeps at its interval.

- `Timeline.tick` lets all that is due in a millisecond happen.
- `Timeline.runUntil` ticks until a condition on the store holds.
- `Timeline.close` ends the lanes: those that handle a job may finish within the
  grace of the pool, and record its outcome once.
-/

namespace JobQueue

/-- What a lane is doing; times are in milliseconds. -/
inductive Phase where
  | polling (due : Nat)
  | handling (since due : Nat) (a : Worker.Attempt)
  | recording (since due : Nat) (a : Worker.Attempt) (o : Outcome) (ended : Instant)
  | gone

/-- A worker of a task. -/
structure Lane where
  task : Task
  phase : Phase

/-- A pool at work. -/
structure Timeline where
  plan : PoolPlan
  session : Session
  /-- The milliseconds since the start. -/
  time : Nat
  lanes : List Lane
  /-- When the next sweep is due. -/
  sweepDue : Nat

namespace Timeline

/-- The milliseconds of a length of time, and at least one. -/
def millisUp (d : Duration) : Nat := max 1 ((d.nanos + 999999) / 1000000)

/-- The lanes of a plan at their start. -/
def lanesOf (plan : PoolPlan) : List Lane :=
  plan.tasks.flatMap fun t => List.replicate t.workers ⟨t, .polling 0⟩

/-- A plan at its start. -/
def start (plan : PoolPlan) (session : Session) : Timeline :=
  { plan, session, time := 0, lanes := lanesOf plan, sweepDue := 0 }

/-! ## Lanes -/

/-- What follows an attempt to record an outcome: the next poll at once, or
another attempt later. -/
def afterRecord (t : Task) (closing taken : Bool) (time since : Nat) (a : Worker.Attempt)
    (o : Outcome) (ended : Instant) : Phase :=
  if taken || closing || Worker.isExpired t (time - since) then .polling time
  else .recording since (time + Worker.pollMillis t) a o ended

/-- One change of a lane; none if nothing is due. -/
def change (closing : Bool) (time : Nat) (t : Task) (phase : Phase) (s : Session) :
    Option (Phase × Session) :=
  match phase with
  | .gone => none
  | .polling due =>
      if closing then some (.gone, s)
      else if time < due then none
      else
        match Worker.take t s with
        | (.attempt a, s) => some (.handling time (time + a.slept) a, s)
        | (.broke, s) => some (.gone, s)
        | (_, s) => some (.polling (time + max 1 (Worker.pollMillis t)), s)
  | .handling since due a =>
      if time < due then none
      else
        let (ended, s) := s.now
        match Worker.outcome t a ended with
        | .error _ => some (.gone, s)
        | .ok o =>
            let (taken, s) := Worker.tryRecord a o ended s
            some (afterRecord t closing taken time since a o ended, s)
  | .recording since due a o ended =>
      if time < due && !closing then none
      else
        let (taken, s) := Worker.tryRecord a o ended s
        some (afterRecord t closing taken time since a o ended, s)

/-- Let a lane change as long as something is due, at most `fuel` times. -/
def advance (closing : Bool) (time : Nat) : Nat → Lane → Session → Lane × Session
  | 0, lane, s => (lane, s)
  | fuel + 1, lane, s =>
      match change closing time lane.task lane.phase s with
      | none => (lane, s)
      | some (phase, s) => advance closing time fuel { lane with phase } s

/-- How often a lane may change in a millisecond. -/
def changesPerTick : Nat := 100000

/-- Let all lanes do what is due. -/
def advanceAll (closing : Bool) (time : Nat) : List Lane → Session → List Lane × Session
  | [], s => ([], s)
  | lane :: rest, s =>
      let (lane, s) := advance closing time changesPerTick lane s
      let (rest, s) := advanceAll closing time rest s
      (lane :: rest, s)

/-! ## Time -/

/-- Let all that is due happen. -/
def tick (tl : Timeline) : Timeline :=
  let (lanes, session) := advanceAll false tl.time tl.lanes tl.session
  if tl.time < tl.sweepDue then { tl with lanes, session }
  else
    let (now, session) := session.now
    { tl with
      lanes
      session := Sweep.sweep tl.plan.tasks now session
      sweepDue := tl.time + millisUp tl.plan.interval }

/-- Let time pass, in milliseconds. -/
def pass (tl : Timeline) (millis : Nat) : Timeline :=
  { tl with
    time := tl.time + millis
    session := tl.session.pass (.clamp (millis * 1000000)) }

/-- Tick until a condition holds, for at most `millis` milliseconds. The answer
tells whether it came to hold. -/
def runUntil (holds : Store → Bool) : (millis : Nat) → Timeline → Bool × Timeline
  | 0, tl => (holds tl.session.store, tl)
  | n + 1, tl =>
      let tl := tl.tick
      if holds tl.session.store then (true, tl) else runUntil holds n (tl.pass 1)

/-! ## The end -/

/-- When the handlers at work are due, the first of them first. -/
def dueTimes (lanes : List Lane) : List Nat :=
  (lanes.filterMap fun lane =>
    match lane.phase with
    | .handling _ due _ => some due
    | _ => none).mergeSort fun a b => a ≤ b

/-- Let the lanes end at a time. -/
def closeAt (tl : Timeline) (due : Nat) : Timeline :=
  let tl := tl.pass (due - tl.time)
  let (lanes, session) := advanceAll true tl.time tl.lanes tl.session
  { tl with lanes, session }

/-- End the pool. -/
def close (tl : Timeline) : Timeline :=
  let tl := tl.closeAt tl.time
  let limit := tl.time + tl.plan.grace.nanos / 1000000
  ((dueTimes tl.lanes).filter fun due => due ≤ limit).foldl closeAt tl

end Timeline

/-! ## Counts -/

/-- How many jobs are in a status. -/
def Store.count (s : Store) (status : String) : Nat :=
  s.rows.countP fun r => r.status.read? == some status

/-- Whether the store holds as many jobs of each status as given, and no others. -/
def Store.hasCounts (s : Store) (counts : List (String × Nat)) : Bool :=
  (counts.all fun c => s.count c.1 == c.2) &&
    s.rows.all fun r => counts.any fun c => r.status.read? == some c.1

end JobQueue
