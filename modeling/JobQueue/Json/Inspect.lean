import JobQueue.Json.Printer
import JobQueue.Text.Quoted

/-!
# JobQueue.Json.Inspect

The text of a document that shows what each value is, for messages about
settings: `Object {"n": Number(1)}`.
-/

namespace JobQueue.Json

mutual

/-- The text of a document with the kind of each value. -/
def inspect : Json → String
  | .null => "Null"
  | .bool b => if b then "Bool(true)" else "Bool(false)"
  | .num n => "Number(" ++ String.ofList (numberChars n) ++ ")"
  | .str s => "String(" ++ Text.quoted s ++ ")"
  | .arr items => "Array [" ++ ", ".intercalate (inspectItems items) ++ "]"
  | .obj members => "Object \x7b" ++ ", ".intercalate (inspectMembers members) ++ "\x7d"

/-- The texts of the items of an array. -/
def inspectItems : List Json → List String
  | [] => []
  | v :: rest => inspect v :: inspectItems rest

/-- The texts of the members of an object. -/
def inspectMembers : List (String × Json) → List String
  | [] => []
  | (k, v) :: rest => (Text.quoted k ++ ": " ++ inspect v) :: inspectMembers rest

end

end JobQueue.Json
