import JobQueue.Store.Link
import JobQueue.Supply

/-!
# JobQueue.Session

What everything that works on a store has in hand: the link to the store, and
the supply of instants and identities.
-/

namespace JobQueue

/-- A link to a store, a clock and a source of identities. -/
structure Session where
  link : Link
  supply : Supply

namespace Session

/-- The store at the end of the link. -/
def store (s : Session) : Store := s.link.store

/-- Put another store at the end of the link. -/
def withStore (s : Session) (store : Store) : Session :=
  { s with link := { s.link with store } }

/-- Read the clock. -/
def now (s : Session) : Instant × Session :=
  let (t, supply) := s.supply.read
  (t, { s with supply })

/-- Draw an identity. -/
def freshId (s : Session) : JobId × Session :=
  let (id, supply) := s.supply.draw
  (id, { s with supply })

/-- Let time pass. -/
def pass (s : Session) (d : Duration) : Session := { s with supply := s.supply.pass d }

end Session

end JobQueue
