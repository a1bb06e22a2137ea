import JobQueue.Pool.Timeline
import JobQueue.Store.Opening
import JobQueue.Task.Cleanup

/-!
# JobQueue.Program

The program around a pool with the cleanup task: its settings come from the
environment, it shows a banner, opens the database, and runs until it is
interrupted.
-/

namespace JobQueue.Program

/-- The version in the banner. -/
def version : String := "0.1.0"

/-- The lines that the program begins with. -/
def banner (c : Config) : List String :=
  [ s!"Job Pool v{version}", s!"   Database: {c.databasePath}",
    s!"   Retention: {c.retention.text}", "   Press Ctrl-C to stop.", "" ]

/-! ## A run -/

/-- Why the program ends by itself. -/
inductive Failure where
  | config (e : ConfigError)
  | database (e : DatabaseError)

/-- The last line of a program that ends by itself. -/
def Failure.line : Failure → String
  | .config e => s!"Error: Config({e.inspect})"
  | .database e => s!"Error: Database({e.inspect})"

/-- The pool of the program. -/
def pool (c : Config) : Except ConfigError PoolPlan := do
  let p ← (Pool.new c).add (Cleanup.task c.cleanupInterval c.retention)
  p.start

/-- What a run shows and leaves behind. -/
structure Report where
  code : Nat
  interrupted : Bool
  lines : List String
  /-- What the database was kept in and the store at the end, if it was opened. -/
  store : Option (Medium × Store)

/-- What is shown where each of the texts ends its line. A text may be several lines. -/
def shown (texts : List String) : List String := texts.flatMap Text.lines

/-- A program that ends by itself. -/
def fail (texts : List String) (f : Failure) : Report :=
  ⟨1, false, shown (texts ++ [f.line]), none⟩

/-- Open the database of the settings. -/
def openStore (t : File.Tree) (path : String) (held : File.Place → Store)
    (fill : Int → String) : Except DatabaseError (Medium × Store) :=
  if Medium.isMemory path then .ok (.memory, .empty) else Store.openAt t path held fill

/-- The store after a run of a plan on a medium. Every statement of a pool is a change,
so that a store that takes none stays as it is. -/
def ran (plan : PoolPlan) (medium : Medium) (store : Store) (supply : Supply)
    (holds : Store → Bool) (millis : Nat) : Store :=
  match medium with
  | .readOnly _ => store
  | _ =>
      let tl := Timeline.start plan ⟨.reliable store, supply⟩
      ((tl.runUntil holds millis).2).close.session.store

/-- Run the program among files that hold stores, and interrupt it as soon as a
condition holds, at the latest after `millis` milliseconds. -/
def run (lookup : String → Option String) (t : File.Tree) (held : File.Place → Store)
    (fill : Int → String) (supply : Supply) (holds : Store → Bool) (millis : Nat) : Report :=
  match Config.fromLookup lookup with
  | .error e => fail [] (.config e)
  | .ok c =>
      match openStore t c.databasePath held fill with
      | .error e => fail (banner c) (.database e)
      | .ok (medium, store) =>
          match pool c with
          | .error e => fail (banner c) (.config e)
          | .ok plan =>
              ⟨0, true, shown (banner c),
                some (medium, ran plan medium store supply holds millis)⟩

end JobQueue.Program
