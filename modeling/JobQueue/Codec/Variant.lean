import JobQueue.Codec.Record

/-!
# JobQueue.Codec.Variant

Formats of choices. A variant without content is its name; one with content is an
object whose only key is its name.
-/

namespace JobQueue.Format

/-- The name of a variant and what stands with it. -/
structure Chosen where
  /-- The name. -/
  name : String
  /-- The content, if the name is the key of an object. -/
  content : Option Json

/-- The variant that a document names. -/
def chosen (variants : List String) (v : Json) : Except Mismatch Chosen :=
  let named (name : String) (content : Option Json) : Except Mismatch Chosen :=
    if variants.contains name then .ok ⟨name, content⟩
    else .error (.unknownVariant name variants)
  match v with
  | .str s => named s none
  | .obj [(k, w)] => named k (some w)
  | .obj _ => .error (.wrongValue .map "map with a single key")
  | v => reject "string or map" v

/-- The content of a variant that must have one. -/
def Chosen.need (c : Chosen) (kind : String) : Except Mismatch Json :=
  match c.content with
  | some v => .ok v
  | none => .error (.wrongType .unitVariant kind)

/-- A variant without content; null is as good as none. -/
def Chosen.unit (c : Chosen) : Except Mismatch Unit :=
  match c.content with
  | some v => Format.unit.read v
  | none => .ok ()

/-- A variant around one value. -/
def Chosen.newtype {α : Type} (c : Chosen) (f : Format α) : Except Mismatch α := do
  f.read (← c.need "newtype variant")

/-- A variant around values in a row; `what` names it. -/
def Chosen.tuple {α : Type} (c : Chosen) (what : String) (count : Nat)
    (build : Source → Except Mismatch α) : Except Mismatch α := do
  match ← c.need "tuple variant" with
  | .arr [] => .error (.wrongType .null s!"tuple variant {what}")
  | .arr vs =>
      let a ← build (.items vs (lengthText s!"tuple variant {what}" count))
      checkLength count vs
      return a
  | v => reject "tuple variant" v

/-- A variant around a record. -/
def Chosen.struct {α : Type} (c : Chosen) (fields : List FieldCheck)
    (build : Source → Except Mismatch α) : Except Mismatch α := do
  match ← c.need "struct variant" with
  | .obj ms =>
      checkMembers fields ms
      build (.members ms)
  | v => reject "struct variant" v

end JobQueue.Format
