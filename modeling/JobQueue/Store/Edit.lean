import JobQueue.Decimal.Whole
import JobQueue.Store.Basic

/-!
# JobQueue.Store.Edit

Columns overwritten by hand, past the operations on jobs. What is written is stored
as its column takes it: the attempts are a whole number, all else is a text or bytes.
-/

namespace JobQueue

/-- The names of the columns that hold texts. -/
inductive TextColumn where
  | id
  | name
  | label
  | data
  | status
  | created
  | available
  | started
  | ended
  | finished
  | events
  | result
  | error
  | reason
  deriving DecidableEq

namespace TextColumn

/-- The column of a name. -/
def ofName? : String → Option TextColumn
  | "id" => some id
  | "name" => some name
  | "label" => some label
  | "data" => some data
  | "status" => some status
  | "created" => some created
  | "available" => some available
  | "started" => some started
  | "ended" => some ended
  | "finished" => some finished
  | "events" => some events
  | "result" => some result
  | "error" => some error
  | "reason" => some reason
  | _ => none

/-- What stands in the column of a row. -/
def get (r : Row) : TextColumn → Column
  | id => r.id
  | name => r.name
  | label => r.label
  | data => r.data
  | status => r.status
  | created => r.created
  | available => r.available
  | started => r.started
  | ended => r.ended
  | finished => r.finished
  | events => r.events
  | result => r.result
  | error => r.error
  | reason => r.reason

/-- The row with something else in the column. -/
def set (r : Row) (v : Column) : TextColumn → Row
  | id => { r with id := v }
  | name => { r with name := v }
  | label => { r with label := v }
  | data => { r with data := v }
  | status => { r with status := v }
  | created => { r with created := v }
  | available => { r with available := v }
  | started => { r with started := v }
  | ended => { r with ended := v }
  | finished => { r with finished := v }
  | events => { r with events := v }
  | result => { r with result := v }
  | error => { r with error := v }
  | reason => { r with reason := v }

theorem get_set (r : Row) (v : Column) (c : TextColumn) : c.get (c.set r v) = v := by
  cases c <;> rfl

theorem get_set_of_ne (r : Row) (v : Column) {c d : TextColumn} (h : c ≠ d) :
    d.get (c.set r v) = d.get r := by
  cases c <;> cases d <;> simp_all [get, set]

end TextColumn

namespace Row

/-- The name of the column of attempts. -/
def attemptsName : String := "attempts"

/-- The row with something else in the column of a name, if the column takes it. -/
def overwrite? (r : Row) (column : String) (v : Column) : Option Row :=
  if column = attemptsName then
    match v with
    | .text s => (Decimal.whole? s).map fun n => { r with attempts := n }
    | _ => none
  else (TextColumn.ofName? column).map (·.set r v)

end Row

namespace Store

/-- The store with something else in a column of the rows of an identity. -/
def overwrite? (s : Store) (id : JobId) (column : String) (v : Column) : Option Store :=
  let edit (r : Row) : Option Row := if r.id.is id.text then r.overwrite? column v else some r
  (s.rows.mapM edit).map fun rows => { s with rows }

end Store

end JobQueue
