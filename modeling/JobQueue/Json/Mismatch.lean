import JobQueue.Json.Printer
import JobQueue.Text.Quoted

/-!
# JobQueue.Json.Mismatch

Why a document is not what was expected of it.

- `Found` is what stood there, `Mismatch` the cause, `Mismatch.message` its wording.
-/

namespace JobQueue

/-- What stood in the place of something else. -/
inductive Found where
  | null
  | bool (b : Bool)
  | num (n : Number)
  | str (s : String)
  | sequence
  | map
  /-- The name of a variant that has nothing with it. -/
  | unitVariant
  deriving DecidableEq

/-- What a document is, as far as a mismatch tells. -/
def Found.ofJson : Json → Found
  | .null => .null
  | .bool b => .bool b
  | .num n => .num n
  | .str s => .str s
  | .arr _ => .sequence
  | .obj _ => .map

/-- The words for what was found. -/
def Found.text : Found → String
  | .null => "null"
  | .bool b => if b then "boolean `true`" else "boolean `false`"
  | .num (.int n) => "integer `" ++ String.ofList (Text.signed n) ++ "`"
  | .num (.float x) =>
      "floating point `" ++ String.ofList (Json.numberChars (.float x)) ++ "`"
  | .str s => "string " ++ Text.quoted s
  | .sequence => "sequence"
  | .map => "map"
  | .unitVariant => "unit variant"

/-- Why a document is not of an expected form. -/
inductive Mismatch where
  /-- It is of another kind. -/
  | wrongType (found : Found) (expected : String)
  /-- It is of the right kind, and out of range. -/
  | wrongValue (found : Found) (expected : String)
  /-- A sequence has another length. -/
  | wrongLength (length : Nat) (expected : String)
  /-- A field is not there. -/
  | missingField (name : String)
  /-- A field is there twice. -/
  | duplicateField (name : String)
  /-- A name is none of the variants. -/
  | unknownVariant (name : String) (variants : List String)
  /-- A text is not of the form that its type asks for. -/
  | malformed (reason : String)
  deriving DecidableEq

namespace Mismatch

/-- The words for a choice of names. -/
def oneOf (names : List String) : String :=
  let quoted := names.map fun n => "`" ++ n ++ "`"
  match quoted with
  | [a] => a
  | [a, b] => a ++ " or " ++ b
  | _ => "one of " ++ ", ".intercalate quoted

/-- The wording of a mismatch. -/
def message : Mismatch → String
  | .wrongType found expected => "invalid type: " ++ found.text ++ ", expected " ++ expected
  | .wrongValue found expected => "invalid value: " ++ found.text ++ ", expected " ++ expected
  | .wrongLength n expected => s!"invalid length {n}, expected {expected}"
  | .missingField name => "missing field `" ++ name ++ "`"
  | .duplicateField name => "duplicate field `" ++ name ++ "`"
  | .unknownVariant name variants =>
      "unknown variant `" ++ name ++ "`, expected " ++ oneOf variants
  | .malformed reason => reason

end Mismatch

end JobQueue
