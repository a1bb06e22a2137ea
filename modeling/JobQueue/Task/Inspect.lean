import JobQueue.Json.Inspect
import JobQueue.Task.Basic

/-!
# JobQueue.Task.Inspect

The text that shows the settings of a task.
-/

namespace JobQueue

/-- Fields between braces after a name; `more` tells that there are others. -/
def inspectFields (name : String) (fields : List (String × String)) (more : Bool) : String :=
  let shown := fields.map fun f => f.1 ++ ": " ++ f.2
  name ++ " \x7b " ++ ", ".intercalate (shown ++ if more then [".."] else []) ++ " \x7d"

/-- The form of double-precision numbers in the texts of settings. -/
def Backoff.numberForm : Decimal.Form := ⟨-4, 15, []⟩

/-- The text of the factor of a backoff. -/
def Backoff.factorText (b : Backoff) : String :=
  String.ofList (numberForm.chars b.factor)

/-- The text of a backoff. -/
def Backoff.inspect (b : Backoff) : String :=
  inspectFields "Backoff"
    [("min", b.min.text), ("max", b.max.text), ("factor", b.factorText)] false

/-- The text of a blueprint. -/
def Blueprint.inspect (b : Blueprint) : String :=
  inspectFields "Blueprint"
    [("label", Text.quoted b.label), ("data", b.data.inspect), ("delay", b.delay.text)] false

/-- The text of a periodic schedule. -/
def Periodic.inspect (p : Periodic) : String :=
  inspectFields "Periodic"
    [("every", p.every.text), ("blueprint", p.blueprint.inspect)] false

/-- The text of a task, without its handler and the waits of its idle workers. -/
def Task.inspect (t : Task) : String :=
  let periodic :=
    match t.periodic with
    | none => "None"
    | some p => "Some(" ++ p.inspect ++ ")"
  inspectFields "Task"
    [ ("name", Text.quoted t.name), ("workers", toString t.workers),
      ("max_attempts", toString t.maxAttempts.toNat), ("lifetime", t.lifetime.text),
      ("backoff", t.backoff.inspect), ("periodic", periodic) ] true

end JobQueue
