import JobQueue.File.Address
import JobQueue.File.Tree
import JobQueue.Store.Basic

/-!
# JobQueue.Store.Opening

How a database is opened at a path: the directories of the path are made, the path
or address is resolved, and the schema of the file is brought up to date.

A path is resolved by its names alone, so `a/../b` is `b`, but nothing on the way
may be a file.
-/

namespace JobQueue

open File (Address Mode Path Place System Tree)

/-! ## Faults -/

/-- Why a file with a database, or with something else, is not used. -/
inductive FileFault where
  /-- The file is no database. -/
  | foreign
  /-- The changes to the database are in a log that cannot be read. -/
  | unlogged
  /-- Another program has the file. -/
  | locked
  deriving DecidableEq

/-- The wording of a file fault. -/
def FileFault.message : FileFault → String
  | .foreign => "file is not a database"
  | .unlogged => "unable to open database file"
  | .locked => "database is locked"

/-- Why a database does not open. -/
inductive OpenFault where
  /-- A directory of the path cannot be made. -/
  | directory (f : File.Fault)
  /-- The path names a database elsewhere. -/
  | remote (path : String)
  /-- There is no connection to the file of a path. -/
  | connection (path : String) (code : Nat)
  /-- The file opens, but is not used. -/
  | file (f : FileFault)
  /-- The file opens, but the first change to it fails. -/
  | unchanged (f : SchemaFault)
  deriving DecidableEq

namespace OpenFault

/-- The wording of a failed connection. -/
def unconnected (text : String) : String :=
  s!"Failed to create connection: Failed to connect to database: `{text}`"

/-- The database error of a fault. -/
def error : OpenFault → DatabaseError
  | directory f => .pool s!"Failed to create database directory: {f.message}"
  | remote path => .pool (unconnected s!"Unable to open local database {path} with Database::open()")
  | connection path code =>
      .pool (unconnected s!"Unable to open connection to local database {path}: {code}")
  | file f => .pool s!"PRAGMA journal_mode = WAL: SQLite failure: `{f.message}`"
  | unchanged f => Schema.ledgerError f

/-- The code of an address that cannot be read. -/
def addressCode : File.AddressFault → Nat
  | .unknown => 1
  | .forbidden => 3

/-- The code of a file whose model is missing. -/
def modelMissing : Nat := 10

/-- The code of a file that does not open. -/
def unopened : Nat := 14

end OpenFault

/-! ## Where a database lies -/

/-- What a database is kept in. -/
inductive Medium where
  /-- Memory, so that it is always new. -/
  | memory
  | file (place : Place)
  /-- A file with a database that takes no changes. -/
  | readOnly (place : Place)
  deriving DecidableEq

namespace Medium

/-- The name that stands for memory. -/
def memoryName : String := ":memory:"

/-- Whether a path is the name that stands for memory. -/
def isMemory (path : String) : Bool :=
  (Text.after? memoryName.toList path.toList).isSome && (Path.ofText path).names == [memoryName]

/-- The bytes that the path to a file may have, not counting those of the working
directory. -/
def maxPath : Nat := 489

/-- The bytes that the name of a file next to the database has in addition. -/
def journalSuffix : Nat := "-journal".length

/-- The place that a name leads to from another place, unless a file is on the way. -/
def follow (t : Tree) (p : Place) (name : String) : Option Place :=
  if name = Place.upwards then some p.up
  else
    match t.child p name with
    | .ok q => some q
    | .error .missing => some (p.step name)
    | .error _ => none

/-- The place that the file of a path has. -/
def place? (t : Tree) (p : Path) : Option Place :=
  (p.names.foldlM (follow t) ⟨p.fromRoot, []⟩).filter fun q => q.size ≤ maxPath

/-- Whether a file at a place opens: its directory is there, and it is no directory
itself. -/
def opens (t : Tree) (q : Place) (mode : Mode) : Bool :=
  t.entry? q.up == some .directory &&
    match t.entry? q with
    | some .directory => false
    | some _ => true
    | none => mode == .create

/-- The medium of a file that opens at a place. The changes to a database in use are
in a log next to it: who takes the file for immutable does not look there, and who
has no share in the log cannot. -/
def ofFile (t : Tree) (q : Place) (a : Address) : Except OpenFault Medium :=
  let inUse := t.entry? q == some .database
  if t.entry? q = some .foreign then .error (.file .foreign)
  else if a.immutable then .error (.unchanged .readOnly)
  else if inUse ∧ (a.unlocked ∨ a.system = .unlogged) then .error (.file .unlogged)
  else if a.mode = .readOnly then
    if inUse then .ok (readOnly q) else .error (.unchanged .readOnly)
  else if inUse ∧ a.system = .exclusive then .error (.file .locked)
  else if File.maxName < (q.names.getLast?.getD "").utf8ByteSize + journalSuffix then
    .error (.unchanged .cannotOpen)
  else .ok (file q)

/-- Whether there is something at the path of a text. -/
def isThere (t : Tree) (path : String) : Bool := path ≠ "" && t.has (.ofText path)

/-- Whether an address names no file. -/
def isNameless (a : Address) : Bool :=
  a.name == "" || a.name == memoryName || a.mode == .memory

/-- The medium of the database at an address. -/
def ofAddress (t : Tree) (path : String) (a : Address) : Except OpenFault Medium :=
  if isNameless a ∨ a.system = .memory then
    if a.mode = .readOnly ∨ a.immutable ∧ ¬isNameless a then .error (.unchanged .readOnly)
    else .ok memory
  else
    match place? t (.ofText a.name) with
    | none => .error (.connection path OpenFault.unopened)
    | some q =>
        if a.model?.any fun model => !isThere t model then
          .error (.connection path OpenFault.modelMissing)
        else if opens t q a.mode then ofFile t q a
        else .error (.connection path OpenFault.unopened)

/-- What the paths of databases elsewhere begin with. -/
def remoteSchemes : List String := ["libsql:", "http:", "https:"]

/-- The medium of the database at a path, which may be an address. -/
def ofPath (t : Tree) (path : String) : Except OpenFault Medium := do
  let t ← (t.makeAll (Path.ofText path).parent).mapError .directory
  let after (scheme : String) : Option (List Char) := Text.after? scheme.toList path.toList
  if remoteSchemes.any fun scheme => (after scheme).isSome then throw (.remote path)
  match after Address.scheme with
  | none => ofAddress t path { name := path }
  | some rest =>
      match Address.read rest with
      | .ok a => ofAddress t path a
      | .error f => throw (.connection path (OpenFault.addressCode f))

/-- What is opened for reading only is never a medium that takes changes. -/
theorem ofAddress_readOnly {t : Tree} {path : String} {a : Address}
    (h : a.mode = .readOnly) :
    ofAddress t path a ≠ .ok memory ∧ ∀ q, ofAddress t path a ≠ .ok (file q) := by
  unfold ofAddress ofFile
  simp only [h, true_or, ↓reduceIte]
  split
  · simp
  · split
    · simp
    · grind

end Medium

/-! ## Opening -/

namespace Store

/-- Open the database at a path, where the files at their places hold stores. One that
takes no changes has to be up to date. -/
def openAt (t : Tree) (path : String) (held : Place → Store) (fill : Int → String) :
    Except DatabaseError (Medium × Store) := do
  match ← (Medium.ofPath t path).mapError OpenFault.error with
  | .memory => return (.memory, .empty)
  | .file q =>
      let (answer, s) := (held q).migrate fill
      answer
      return (.file q, s)
  | .readOnly q =>
      if (held q).schema.isCurrent then return (.readOnly q, held q)
      else throw (OpenFault.unchanged .readOnly).error

end Store

end JobQueue
