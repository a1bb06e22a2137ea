import JobQueue.Error

/-!
# JobQueue.Store.Schema

What a database file holds besides rows of jobs: its tables, views and indexes by
name, and the ledger of the migrations that were applied to it. The names of
objects and columns are compared without regard to case, and are kept in small
letters.

- `Definition.apply` adds a table or an index unless it is there already.
- `Schema.record` enters a row into the ledger, as far as the constraints of the
  ledger let it in. They look at the rows that are there and at the whole new one,
  with what the database fills in by itself.
- `Schema.migrate` brings a schema up to date: each migration runs its definitions
  one by one and is then entered into the ledger. A run stops at the first fault
  and leaves what it has done.
-/

namespace JobQueue

/-! ## Objects -/

/-- What an object of a schema is. -/
inductive ObjectKind where
  | table (columns : List String)
  | view (columns : List String)
  | index (table : String)
  deriving DecidableEq

/-- A named object of a schema. -/
structure SchemaObject where
  name : String
  kind : ObjectKind
  deriving DecidableEq

/-- The word for what an object is. -/
def ObjectKind.word : ObjectKind → String
  | .table _ => "table"
  | .view _ => "view"
  | .index _ => "index"

/-- Whether an object is an index. -/
def ObjectKind.isIndex : ObjectKind → Bool
  | .index _ => true
  | _ => false

/-! ## Ledgers -/

/-- A row of the ledger. -/
structure LedgerEntry where
  version : Int
  name : String
  /-- What the database fills in by itself in the other columns, such as the time. -/
  filled : String
  deriving DecidableEq

/-- What becomes of a row that is to be entered. -/
inductive Admission where
  | taken
  /-- It violates a constraint, and is passed over. -/
  | passedOver
  /-- It fails for another reason, in the words of the database. -/
  | refused (reason : String)
  deriving DecidableEq

/-- The constraints of a ledger: what becomes of a row beside those that it has. -/
abbrev Constraints := List LedgerEntry → LedgerEntry → Admission

namespace Constraints

/-- No two rows may be alike. -/
def unique (alike : LedgerEntry → LedgerEntry → Bool) : Constraints :=
  fun es e => if es.any (alike e) then .passedOver else .taken

/-- The key that the ledger is made with. -/
def key : Constraints := unique fun e e' => e.version == e'.version

end Constraints

/-- The name of the ledger. -/
def Schema.ledgerName : String := "_migrations"

/-- The objects of a database, with the rows and the constraints of its ledger. -/
structure Schema where
  objects : List SchemaObject
  entries : List LedgerEntry := []
  constraints : Constraints := .key
  /-- A ledger that is still to be made has its key alone. -/
  unmade : (∀ o ∈ objects, o.name = Schema.ledgerName → o.kind.isIndex) → constraints = .key

namespace Schema

/-- A database without anything. -/
def empty : Schema := { objects := [], unmade := fun _ => rfl }

/-- The columns that the ledger is made with. -/
def ledgerLayout : List String := ["version", "name", "applied_at"]

/-- The table or view of a name. -/
def relation? (s : Schema) (name : String) : Option ObjectKind :=
  s.objects.findSome? fun o =>
    if o.name = name then
      match o.kind with
      | .index _ => none
      | kind => some kind
    else none

/-- Whether there is an index of a name. -/
def hasIndex (s : Schema) (name : String) : Bool :=
  s.objects.any fun o => o.name == name && o.kind.isIndex

/-- Add an object. -/
def add (s : Schema) (name : String) (kind : ObjectKind) : Schema where
  objects := s.objects ++ [⟨name, kind⟩]
  entries := s.entries
  constraints := s.constraints
  unmade h := s.unmade fun o ho => h o (List.mem_append_left _ ho)

/-- The columns of the ledger, if there is one. -/
def ledgerColumns (s : Schema) : List String :=
  match s.relation? ledgerName with
  | some (.table columns) => columns
  | some (.view columns) => columns
  | _ => []

/-- The rows of a ledger that has a version and a name for each. -/
def ledger? (s : Schema) : Option (List LedgerEntry) :=
  if s.ledgerColumns.contains "version" && s.ledgerColumns.contains "name" then some s.entries
  else none

end Schema

/-! ## Definitions -/

/-- Why a definition, or a statement on the ledger, fails. -/
inductive SchemaFault where
  | noTable (name : String)
  | noColumn (name : String)
  | ledgerColumn (name : String)
  | viewIndexed
  | ledgerIsView
  /-- The ledger fails on a row, in the words of the database. -/
  | refused (reason : String)
  | tableNamed (name : String)
  | indexNamed (name : String)
  /-- The file can only be read. -/
  | readOnly
  /-- A file next to the database cannot be made. -/
  | cannotOpen
  deriving DecidableEq

/-- The wording of a schema fault. -/
def SchemaFault.message : SchemaFault → String
  | .noTable name => s!"no such table: main.{name}"
  | .noColumn name => s!"no such column: {name}"
  | .ledgerColumn name => s!"table {Schema.ledgerName} has no column named {name}"
  | .viewIndexed => "views may not be indexed"
  | .ledgerIsView => s!"cannot modify {Schema.ledgerName} because it is a view"
  | .refused reason => reason
  | .tableNamed name => s!"there is already a table named {name}"
  | .indexNamed name => s!"there is already an index named {name}"
  | .readOnly => "attempt to write a readonly database"
  | .cannotOpen => "unable to open database file"

/-- A table or an index that a schema should have. -/
inductive Definition where
  | table (name : String) (columns : List String)
  | index (name table : String) (columns : List String)
  deriving DecidableEq

/-- Add what is defined, unless there is something of its name and kind. A view
stands for a table, and an index of the name for the index, whatever they hold. -/
def Definition.apply (d : Definition) (s : Schema) : Except SchemaFault Schema :=
  match d with
  | .table name columns =>
      match s.relation? name with
      | some _ => .ok s
      | none =>
          if s.hasIndex name then .error (.indexNamed name)
          else .ok (s.add name (.table columns))
  | .index name target columns =>
      match s.relation? target with
      | some (.table present) =>
          if (s.relation? name).isSome then .error (.tableNamed name)
          else if s.hasIndex name then .ok s
          else
            match columns.find? fun c => !present.contains c with
            | some c => .error (.noColumn c)
            | none => .ok (s.add name (.index target))
      | some _ => .error .viewIndexed
      | none => .error (.noTable target)

/-! ## Migrations -/

/-- A step from one layout to the next. -/
structure Migration where
  version : Int
  name : String
  definitions : List Definition

/-- The row of a migration, the rest of which the database fills in. -/
def Migration.entry (m : Migration) (fill : Int → String) : LedgerEntry :=
  ⟨m.version, m.name, fill m.version⟩

/-- The columns of the table of jobs. -/
def jobColumns : List String :=
  ["id", "name", "label", "data", "status", "created", "available", "started", "ended",
    "finished", "attempts", "events", "result", "error", "reason"]

/-- The migrations, oldest first. -/
def migrations : List Migration :=
  [ { version := 1
      name := "jobs"
      definitions :=
        [ .table "jobs" jobColumns,
          .index "idx_jobs_claim" "jobs" ["name", "status", "available", "created"],
          .index "idx_jobs_identity" "jobs" ["name", "label"] ] },
    { version := 2
      name := "jobs_retention"
      definitions := [ .index "idx_jobs_finished" "jobs" ["finished"] ] } ]

namespace Schema

/-- The wording of a migration fault at a step. -/
def migrationError (during : String) (f : SchemaFault) : DatabaseError :=
  .migration s!"{during}: SQLite failure: `{f.message}`"

/-- Apply definitions in order, up to the first fault. -/
def applyAll (s : Schema) : List Definition → Except SchemaFault Unit × Schema
  | [] => (.ok (), s)
  | d :: ds =>
      match d.apply s with
      | .ok s => applyAll s ds
      | .error f => (.error f, s)

/-- The highest version in the ledger, or zero. -/
def version (s : Schema) : Except SchemaFault Int :=
  if s.ledgerColumns.contains "version" then
    match s.entries.map LedgerEntry.version with
    | [] => .ok 0
    | v :: vs => .ok (vs.foldl max v)
  else .error (.noColumn "version")

/-- Enter a row into the ledger, as far as its constraints let it in. -/
def record (s : Schema) (e : LedgerEntry) : Except SchemaFault Schema :=
  match s.relation? ledgerName with
  | some (.view _) => .error .ledgerIsView
  | _ =>
      if s.ledgerColumns.contains "name" then
        match s.constraints s.entries e with
        | .taken => .ok { s with entries := s.entries ++ [e] }
        | .passedOver => .ok s
        | .refused reason => .error (.refused reason)
      else .error (.ledgerColumn "name")

/-- Apply the migrations above a version, up to the first fault. The database fills in the
rest of the row of a version. -/
def applyAbove (s : Schema) (fill : Int → String) (current : Int) :
    List Migration → Except DatabaseError Unit × Schema
  | [] => (.ok (), s)
  | m :: ms =>
      if current < m.version then
        match s.applyAll m.definitions with
        | (.error f, s) =>
            (.error (migrationError s!"Migration V{m.version} ({m.name}) failed" f), s)
        | (.ok (), s) =>
            match s.record (m.entry fill) with
            | .error f =>
                (.error (migrationError s!"Failed to record migration V{m.version}" f), s)
            | .ok s => applyAbove s fill current ms
      else applyAbove s fill current ms

/-- There is no ledger, and none can be made. -/
def ledgerError (f : SchemaFault) : DatabaseError :=
  migrationError s!"Failed to create {ledgerName} table" f

/-- The version in the ledger cannot be read. -/
def versionError (f : SchemaFault) : DatabaseError :=
  migrationError "Failed to query migration version" f

/-- Bring a schema up to date. In the end the version is read once more. -/
def migrate (s : Schema) (fill : Int → String) : Except DatabaseError Unit × Schema :=
  match (Definition.table ledgerName ledgerLayout).apply s with
  | .error f => (.error (ledgerError f), s)
  | .ok s =>
      match s.version with
      | .error f => (.error (versionError f), s)
      | .ok current =>
          match s.applyAbove fill current migrations with
          | (.error e, s) => (.error e, s)
          | (.ok (), s) => (s.version.mapError versionError |>.map fun _ => (), s)

/-- Whether a run of the migrations has nothing to write. -/
def isCurrent (s : Schema) : Bool :=
  match s.version with
  | .ok current => migrations.all (·.version ≤ current)
  | .error _ => false

/-- The schema of a new database. What was filled in is nowhere looked at. -/
def current : Schema := (empty.migrate fun _ => "").2

/-- Whether there is a table of jobs. -/
def hasJobs (s : Schema) : Bool :=
  match s.relation? "jobs" with
  | some (.table _) => true
  | _ => false

/-- A new database has a table of jobs. -/
theorem hasJobs_current : current.hasJobs = true := by decide +kernel

theorem isCurrent_current : current.isCurrent = true := by decide +kernel

variable {s : Schema} (fill : Int → String)

theorem applyAbove_of_le {v : Int} {ms : List Migration} (h : ∀ m ∈ ms, m.version ≤ v) :
    s.applyAbove fill v ms = (.ok (), s) := by
  induction ms with
  | nil => rfl
  | cons m ms ih =>
      rw [List.forall_mem_cons] at h
      rw [applyAbove, if_neg (Int.not_lt.mpr h.1), ih h.2]

/-- Where nothing is to be written, a run of the migrations goes well. -/
theorem migrate_of_isCurrent (h : s.isCurrent) : s.migrate fill = (.ok (), s) := by
  rw [isCurrent] at h
  cases hversion : s.version with
  | error f => simp [hversion] at h
  | ok v =>
      rw [hversion] at h
      have hbelow : ∀ m ∈ migrations, m.version ≤ v := by simpa using h
      have hledger : (Definition.table ledgerName ledgerLayout).apply s = .ok s := by
        rw [Definition.apply]
        cases hrelation : s.relation? ledgerName with
        | some k => rfl
        | none => simp [version, ledgerColumns, hrelation] at hversion
      simp only [migrate, hledger, hversion, applyAbove_of_le fill hbelow]
      rfl

end Schema

end JobQueue
