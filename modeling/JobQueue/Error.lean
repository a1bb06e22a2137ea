import JobQueue.Codec.Format
import JobQueue.Text.Quoted
import JobQueue.Time.Duration

/-!
# JobQueue.Error

What can go wrong around a pool, and the wording of it.

- `ConfigError`, `DatabaseError`, `CodecError` and `EnqueueError` belong to one
  activity each; `Error` joins them.
- `message` is the text for a reader, `inspect` the text that shows the parts of
  an error, `sources` the wordings of the errors beneath it.
-/

namespace JobQueue

/-! ## Settings -/

/-- Why a pool cannot be set up. -/
inductive ConfigError where
  | duplicateTask (name : String)
  | emptyTaskName
  | invalidValue (key message : String)
  | invalidBlueprint (name reason : String)
  | noTasks
  deriving DecidableEq

namespace ConfigError

/-- The wording of a configuration error. -/
def message : ConfigError → String
  | duplicateTask name => s!"Task {name} registered twice"
  | emptyTaskName => "Task name must not be empty"
  | invalidValue key message => s!"Invalid configuration value for {key}: {message}"
  | invalidBlueprint name reason => s!"Invalid periodic blueprint for task {name}: {reason}"
  | noTasks => "Pool has no tasks"

/-- The parts of a configuration error. -/
def inspect : ConfigError → String
  | duplicateTask name => "DuplicateTask \x7b name: " ++ Text.quoted name ++ " \x7d"
  | emptyTaskName => "EmptyTaskName"
  | invalidValue key message =>
      "InvalidValue \x7b key: " ++ Text.quoted key ++ ", message: " ++ Text.quoted message ++
        " \x7d"
  | invalidBlueprint name reason =>
      "InvalidBlueprint \x7b name: " ++ Text.quoted name ++ ", reason: " ++
        Text.quoted reason ++ " \x7d"
  | noTasks => "NoTasks"

/-- A length of time that must not be zero is. -/
def zero (key : String) : ConfigError := invalidValue key "must be greater than zero"

end ConfigError

/-! ## The table -/

/-- Why the table cannot be reached or used. -/
inductive DatabaseError where
  /-- It does not open. -/
  | pool (text : String)
  /-- A statement fails. -/
  | query (text : String)
  /-- Its layout cannot be brought up to date. -/
  | migration (text : String)
  /-- What it holds is not of the form of a job. -/
  | serialization (text : String)
  deriving DecidableEq

namespace DatabaseError

/-- The wording of a database error. -/
def message : DatabaseError → String
  | pool text => s!"Connection pool error: {text}"
  | query text => s!"Query failed: {text}"
  | migration text => s!"Migration failed: {text}"
  | serialization text => s!"Serialization error: {text}"

/-- The parts of a database error. -/
def inspect : DatabaseError → String
  | pool text => "Pool(" ++ Text.quoted text ++ ")"
  | query text => "Query(" ++ Text.quoted text ++ ")"
  | migration text => "Migration(" ++ Text.quoted text ++ ")"
  | serialization text => "Serialization(" ++ Text.quoted text ++ ")"

end DatabaseError

/-! ## Producers -/

/-- Why a job is not enqueued. -/
inductive EnqueueError where
  | emptyName
  | codec (e : CodecError)
  | database (e : DatabaseError)
  /-- The delay leads past the calendar. -/
  | invalidDelay (d : Duration)
  deriving DecidableEq

namespace EnqueueError

/-- The wording of an enqueue error; that of a codec or database error is its own. -/
def message : EnqueueError → String
  | emptyName => "Job name must not be empty"
  | codec e => e.message
  | database e => e.message
  | invalidDelay d => s!"Delay {d.text} is out of range"

/-- The wordings of the errors beneath. -/
def sources : EnqueueError → List String
  | codec e => e.sources
  | _ => []

end EnqueueError

/-! ## All together -/

/-- Any error. -/
inductive Error where
  | config (e : ConfigError)
  | database (e : DatabaseError)
  | codec (e : CodecError)
  | enqueue (e : EnqueueError)
  | io (text : String)
  deriving DecidableEq

namespace Error

/-- The wording of an error. -/
def message : Error → String
  | config e => s!"Configuration error: {e.message}"
  | database e => s!"Database error: {e.message}"
  | codec e => s!"Codec error: {e.message}"
  | enqueue e => s!"Enqueue error: {e.message}"
  | io text => s!"I/O error: {text}"

/-- The wordings of the errors beneath, the nearest first. -/
def sources : Error → List String
  | config e => [e.message]
  | database e => [e.message]
  | codec e => e.message :: e.sources
  | enqueue e => e.message :: e.sources
  | io text => [text]

end Error

end JobQueue
