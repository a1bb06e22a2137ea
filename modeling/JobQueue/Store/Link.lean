import JobQueue.Store.Basic

/-!
# JobQueue.Store.Link

A store at the end of a link that may fail. How often each kind of operation is
refused is counted down; after that, the link does what the store does.
-/

namespace JobQueue

/-- How often operations are still going to be refused. -/
structure Refusals where
  /-- Insertions of either kind. -/
  insert : Nat := 0
  claim : Nat := 0
  finish : Nat := 0
  requeue : Nat := 0
  /-- Claims that break off the worker that makes them. -/
  brokenClaim : Nat := 0
  /-- Ends of attempts that come just after the claim was taken back and given out
  again. -/
  lateFinish : Nat := 0

/-- A store and the refusals ahead of it. -/
structure Link where
  store : Store
  refusals : Refusals

namespace Link

/-- A link that refuses nothing. -/
def reliable (s : Store) : Link := ⟨s, {}⟩

/-- The error of a refused operation. -/
def locked : DatabaseError := .query "database is locked"

/-- The link around the answer of its store. -/
def lift {α : Type} (l : Link) (a : Store.Answer α) : Except DatabaseError α × Link :=
  (a.1, { l with store := a.2 })

/-- Add a job. -/
def insert (l : Link) (j : Job) : Except DatabaseError Unit × Link :=
  match l.refusals.insert with
  | n + 1 => (.error locked, { l with refusals := { l.refusals with insert := n } })
  | 0 => l.lift (l.store.insert j)

/-- Add a job, unless one of its name and label keeps it away. -/
def insertIfAbsent (l : Link) (j : Job) (finishedAfter : Instant) :
    Except DatabaseError Bool × Link :=
  match l.refusals.insert with
  | n + 1 => (.error locked, { l with refusals := { l.refusals with insert := n } })
  | 0 => l.lift (l.store.insertIfAbsent j finishedAfter)

/-- Take the oldest job of a name; no answer means that the claim broke off. -/
def claim (l : Link) (name : String) (now : Instant) :
    Option (Except DatabaseError (Option Job)) × Link :=
  match l.refusals.brokenClaim, l.refusals.claim with
  | n + 1, _ => (none, { l with refusals := { l.refusals with brokenClaim := n } })
  | 0, n + 1 =>
      (some (.error locked), { l with refusals := { l.refusals with claim := n } })
  | 0, 0 =>
      let (answer, l) := l.lift (l.store.claim name now)
      (some answer, l)

/-- Take back all claims of the name of a job, and give one out again. -/
def reclaim (s : Store) (id : JobId) (now : Instant) : Store :=
  match (s.rows.find? fun r => r.id.is id.text).bind fun r => r.name.read? with
  | none => s
  | some name => (((s.requeue name .latest now).2).claim name now).2

/-- Record the outcome of an attempt. -/
def finish (l : Link) (id : JobId) (attempt : UInt32) (o : Outcome) (now : Instant) :
    Except DatabaseError Bool × Link :=
  match l.refusals.finish, l.refusals.lateFinish with
  | n + 1, _ => (.error locked, { l with refusals := { l.refusals with finish := n } })
  | 0, n + 1 =>
      let late : Link := ⟨reclaim l.store id now, { l.refusals with lateFinish := n }⟩
      late.lift (late.store.finish id attempt o now)
  | 0, 0 => l.lift (l.store.finish id attempt o now)

/-- Take back the claims of a name that are older than an instant. -/
def requeue (l : Link) (name : String) (startedBefore now : Instant) :
    Except DatabaseError (List JobId) × Link :=
  match l.refusals.requeue with
  | n + 1 => (.error locked, { l with refusals := { l.refusals with requeue := n } })
  | 0 => l.lift (l.store.requeue name startedBefore now)

end Link

end JobQueue
