import JobQueue.Codec.Format

/-!
# JobQueue.Codec.Record

Formats of records. A record is an object with a member for each field, or a
sequence of the fields in the order of their declaration.

Of two faults in an object the one in the lesser key is told; a field that is not
there is told after every fault in one that is. Members that are no field do not
matter.
-/

namespace JobQueue.Format

/-- What a record is read from. -/
inductive Source where
  | members (ms : List (String × Json))
  /-- The items, and the words for as many as there should be. -/
  | items (vs : List Json) (expected : String)

namespace Source

/-- A field that must be there. -/
def field {α : Type} (src : Source) (index : Nat) (name : String) (f : Format α) :
    Except Mismatch α :=
  match src with
  | .members ms =>
      match ms.lookup name with
      | some v => f.read v
      | none => .error (.missingField name)
  | .items vs expected => item f index expected vs

/-- A field that has a value also where a member is missing. -/
def fieldOr {α : Type} (src : Source) (index : Nat) (name : String) (f : Format α)
    (default : α) : Except Mismatch α :=
  match src with
  | .members ms =>
      match ms.lookup name with
      | some v => f.read v
      | none => .ok default
  | .items vs expected => item f index expected vs

/-- A field that has a value also where a member or an item is missing. -/
def fieldOrDefault {α : Type} (src : Source) (index : Nat) (name : String) (f : Format α)
    (default : α) : Except Mismatch α :=
  match src with
  | .members _ => src.fieldOr index name f default
  | .items vs _ =>
      match vs[index]? with
      | some v => f.read v
      | none => .ok default

end Source

/-- A field as far as faults in it go: its name, and whether a document fits it. -/
abbrev FieldCheck := String × (Json → Except Mismatch Unit)

/-- The check of a field. -/
def check {α : Type} (name : String) (f : Format α) : FieldCheck :=
  (name, fun v => (f.read v).map fun _ => ())

/-- Read the members that are fields in their order, for their faults alone. -/
def checkMembers (fields : List FieldCheck) : List (String × Json) → Except Mismatch Unit
  | [] => .ok ()
  | (k, v) :: rest =>
      match fields.lookup k with
      | some fits => do fits v; checkMembers fields rest
      | none => checkMembers fields rest

/-- The words for how many items a record has. -/
def lengthText (what : String) (count : Nat) : String :=
  if count = 1 then s!"{what} with 1 element" else s!"{what} with {count} elements"

/-- Read a record. -/
def readRecord {α : Type} (name : String) (fields : List FieldCheck)
    (build : Source → Except Mismatch α) : Json → Except Mismatch α
  | .obj ms => do
      checkMembers fields ms
      build (.members ms)
  | .arr vs => do
      let a ← build (.items vs (lengthText s!"struct {name}" fields.length))
      checkLength fields.length vs
      return a
  | v => reject s!"struct {name}" v

end JobQueue.Format
