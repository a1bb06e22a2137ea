import JobQueue.Codec.Key
import JobQueue.Codec.Variant

/-!
# JobQueue.Sample.Payload

Payload types as a user of the library writes them: records, a choice, a document
that may refuse to be written, and a map with keys of any type. The names of the
types in messages begin with the name of the module that defines them.
-/

namespace JobQueue.Sample

/-! ## Records -/

/-- A message to be sent. -/
structure Mail where
  recipient : String
  retries : UInt8

/-- Mails as documents. -/
def Mail.format (space : String) : Format Mail where
  name := s!"{space}Mail"
  read := Format.readRecord "Mail"
    [Format.check "to" Format.string, Format.check "retries" Format.u8]
    fun src => do
      let recipient ← src.field 0 "to" Format.string
      let retries ← src.field 1 "retries" Format.u8
      return ⟨recipient, retries⟩
  write m := .ok (.object [("to", .str m.recipient), ("retries", .int m.retries.toNat)])

/-- A number to be answered. -/
structure Ping where
  n : UInt32

/-- Pings as documents. -/
def Ping.format (space : String) : Format Ping where
  name := s!"{space}Ping"
  read := Format.readRecord "Ping" [Format.check "n" Format.u32] fun src => do
    return ⟨← src.field 0 "n" Format.u32⟩
  write p := .ok (.object [("n", .int p.n.toNat)])

/-! ## A choice -/

/-- A shape. -/
inductive Shape where
  | dot
  | circle (r : UInt32)
  | rect (w h : UInt32)
  | line (x y : Int32)

/-- The shape of a variant. -/
def Shape.ofChosen (c : Format.Chosen) : Except Mismatch Shape := do
  if c.name = "Dot" then
    c.unit
    return .dot
  else if c.name = "Circle" then
    return .circle (← c.newtype Format.u32)
  else if c.name = "Rect" then
    c.struct [Format.check "w" Format.u32, Format.check "h" Format.u32] fun src => do
      let w ← src.field 0 "w" Format.u32
      let h ← src.field 1 "h" Format.u32
      return .rect w h
  else
    c.tuple "Shape::Line" 2 fun src => do
      let x ← src.field 0 "" Format.i32
      let y ← src.field 1 "" Format.i32
      return .line x y

/-- Shapes as documents. -/
def Shape.format (space : String) : Format Shape where
  name := s!"{space}Shape"
  read v := do Shape.ofChosen (← Format.chosen ["Dot", "Circle", "Rect", "Line"] v)
  write
    | .dot => .ok (.str "Dot")
    | .circle r => .ok (.object [("Circle", .int r.toNat)])
    | .rect w h => .ok (.object [("Rect", .object [("w", .int w.toNat), ("h", .int h.toNat)])])
    | .line x y => .ok (.object [("Line", .arr [.int x.toInt, .int y.toInt])])

/-! ## Values without a type of their own -/

/-- A document, or something that refuses to be one. -/
inductive Reply where
  | value (v : Json)
  | bad (reason : String)

/-- Replies as documents. -/
def Reply.format (space : String) : Format Reply where
  name := s!"{space}Res"
  read v := .ok (.value v)
  write
    | .value v => .ok v
    | .bad reason => .error (.refused reason)

/-- The entries of a map. -/
abbrev Pairs := List (Key × Json)

/-- Maps as documents. -/
def Pairs.format (space : String) : Format Pairs where
  name := s!"{space}Pairs"
  read
    | .obj ms => .ok (ms.map fun (k, v) => (.text k, v))
    | v => Format.reject "a map" v
  write := Format.writeEntries

end JobQueue.Sample
