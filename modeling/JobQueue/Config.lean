import JobQueue.Error
import JobQueue.Text.Blank

/-!
# JobQueue.Config

The settings of a pool as a whole, read from named texts such as environment
variables. A text that is not there leaves the default.

`wholeNumber` reads the numbers: blanks around it are dropped, a plus sign may
lead it, and it has at least one digit and fits 64 bits.
-/

namespace JobQueue

open Text

/-! ## Numbers -/

/-- Why a text is no number. -/
inductive NumberFault where
  | empty
  | invalidDigit
  | tooLarge
  deriving DecidableEq

/-- The wording of a number fault. -/
def NumberFault.message : NumberFault → String
  | .empty => "cannot parse integer from empty string"
  | .invalidDigit => "invalid digit found in string"
  | .tooLarge => "number too large to fit in target type"

/-- Digits after a number below `2 ^ 64` that has been read; the first fault counts. -/
def digitsFrom : Nat → List Char → Except NumberFault Nat
  | n, [] => .ok n
  | n, c :: cs =>
      if !isDigit c then .error .invalidDigit
      else if 2 ^ 64 ≤ 10 * n + digitValue c then .error .tooLarge
      else digitsFrom (10 * n + digitValue c) cs

/-- A number without its blanks. -/
def unsigned : List Char → Except NumberFault Nat
  | [] => .error .empty
  | ['+'] => .error .invalidDigit
  | '+' :: cs => digitsFrom 0 cs
  | cs => digitsFrom 0 cs

/-- The whole number of a text. -/
def wholeNumber (s : String) : Except NumberFault UInt64 :=
  (unsigned (trim s.toList)).map UInt64.ofNat

/-! ## Settings -/

/-- The settings of a pool. -/
structure Config where
  /-- Where the table is kept; `:memory:` keeps it in memory. -/
  databasePath : String := "./data/jobs.db"
  /-- The time between two sweeps. -/
  reaperInterval : Duration := .ofSecs 5
  /-- How long a closing pool waits for handlers; if not given, as long as the
  longest lifetime of its tasks. -/
  shutdownGrace : Option Duration := none
  /-- How long finished jobs are kept. -/
  retention : Duration := .ofSecs 604800
  /-- The time between two cleanups. -/
  cleanupInterval : Duration := .ofSecs 3600
  deriving DecidableEq

namespace Config

/-- The names of the settings. -/
def pathKey : String := "JOB_POOL_DB_PATH"
def reaperKey : String := "JOB_POOL_REAPER_INTERVAL_MS"
def graceKey : String := "JOB_POOL_SHUTDOWN_GRACE_MS"
def retentionKey : String := "JOB_POOL_RETENTION_SECS"
def cleanupKey : String := "JOB_POOL_CLEANUP_INTERVAL_SECS"

/-- The number under a name. -/
def number? (lookup : String → Option String) (key : String) :
    Except ConfigError (Option UInt64) :=
  match lookup key with
  | none => .ok none
  | some raw =>
      match wholeNumber raw with
      | .ok n => .ok (some n)
      | .error f => .error (.invalidValue key s!"{Text.quoted raw}: {f.message}")

/-- A length of time that must not be zero. -/
def nonZero (key : String) (d : Duration) : Except ConfigError Duration :=
  if d.isZero then .error (.zero key) else .ok d

/-- The length of time under a name, or a default. -/
def interval (lookup : String → Option String) (key : String) (unit : UInt64 → Duration)
    (default : Duration) : Except ConfigError Duration := do
  match ← number? lookup key with
  | none => return default
  | some n => nonZero key (unit n)

/-- The settings from named texts. The first fault in the order of the fields counts. -/
def fromLookup (lookup : String → Option String) : Except ConfigError Config := do
  let standard : Config := {}
  let reaperInterval ← interval lookup reaperKey .ofMillis standard.reaperInterval
  let grace ← number? lookup graceKey
  let retention ← number? lookup retentionKey
  let cleanupInterval ← interval lookup cleanupKey .ofSecs standard.cleanupInterval
  return {
    databasePath := (lookup pathKey).getD standard.databasePath
    reaperInterval
    shutdownGrace := grace.map .ofMillis
    retention := (retention.map .ofSecs).getD standard.retention
    cleanupInterval }

end Config

end JobQueue
